import LiveMarkup.Proofs.Rendering.Meeting
/-!
# Showing something else

A plan is shown where another one has been shown. What is found again of the latter stays and is brought up to
date, and all else is made anew beside it. What has to go stays where it was until the binding that has shown it is
brought up to date (`Exhibit.Renewed`). The proof follows the way in which the plan meets what has been on show
(`Exhibit.Meets.renewed`).
-/

namespace LiveMarkup

open Exhibit

/-- A container, what has been made beside its content, and some other nodes are kept alive. -/
structure Custody.Shelters (custody : Custody) (level : Level) (c : NodeId) (made : List Exhibit)
    (kept : List NodeId) : Prop where
  container : c ∈ custody.nodes
  made : Stock.held ⟨made, []⟩ ⊆ custody.nodes ++ level.held
  kept : kept ⊆ custody.nodes ++ level.held

theorem Custody.Shelters.mono {custody custody' : Custody} {level level' : Level} {c : NodeId} {made : List Exhibit}
    {kept : List NodeId} (h : custody.Shelters level c made kept) (hnodes : custody.nodes ⊆ custody'.nodes)
    (hlevel : level.held ⊆ custody'.nodes ++ level'.held) : custody'.Shelters level' c made kept :=
  have hsub := List.append_subset.2 ⟨List.Subset.trans hnodes (List.subset_append_left ..), hlevel⟩
  ⟨hnodes h.container, List.Subset.trans h.made hsub, List.Subset.trans h.kept hsub⟩

namespace Exhibit

variable {c : NodeId} {is : List Instance} {cs : List Cache} {x : Exhibit} {p : Plan} {xs : List Exhibit}
  {ps : List Plan}

/-- A plan is shown in the place of an exhibit, wherever that is: what stands there then, what has been made, and
what is to be shown. -/
structure Renewed (c : NodeId) (is : List Instance) (cs : List Cache) (x : Exhibit) (p : Plan) : Prop where
  held : ∀ e ∈ x.entries, e.1.held ⊆ is.flatMap Instance.held ++ heldBySlots cs
  renew : ∀ {kept : List NodeId} {K : Exhibit → Exhibit} {made : List Exhibit} {custody : Custody}
    {newSlots : List Cache} {d : Document}, Framing kept K →
    custody.Shelters ((Level.mk is cs newSlots d).past p.forms.length p.decks.length) c made kept →
    d.Carries c made (K x) →
    ∃ z ys x' d', p.realize custody ⟨is, cs, newSlots, d⟩ = ⟨x'.result, x'.instances,
        ((Level.mk is cs newSlots d).past p.forms.length p.decks.length).shown x'.slots d'⟩ ∧ x'.Shows p ∧
      d'.Carries c (ys ++ made) (K z) ∧ Becomes [z] ys [x'] ∧ z.blocks = x.blocks ∧
      ∀ v w, x = .leaf v → p = .leaf w → z = .leaf w ∧ ys = []

/-- Plans are shown in the place of what has been shown in some holes, wherever that is. -/
structure RenewedAll (c : NodeId) (roots : List Plant) (holes : List Hole) (es : List (Binding × Spot))
    (is : List Instance) (cs : List Cache) (xs : List Exhibit) (ps : List Plan) : Prop where
  held : ∀ e ∈ entriesAll xs, e.1.held ⊆ is.flatMap Instance.held ++ heldBySlots cs
  renew : (∀ p ∈ ps, p.Fits) → ∀ {kept : List NodeId} {L : List Exhibit → Exhibit} {made : List Exhibit}
    {custody : Custody} {newSlots : List Cache} {d : Document}, FramingAll kept L →
    custody.Shelters ((Level.mk is cs newSlots d).past (formsAll ps).length (decksAll ps).length) c made kept →
    d.Carries c made (L xs) →
    ∃ zs yss xs' d', realizeAll custody ⟨is, cs, newSlots, d⟩ ps = ⟨results xs', instancesAll xs',
        ((Level.mk is cs newSlots d).past (formsAll ps).length (decksAll ps).length).shown (slotsAll xs') d'⟩ ∧
      ShowsAll xs' ps ∧ d'.Carries c (yss.flatten ++ made) (L zs) ∧ Turns roots holes es zs yss xs' ps

/-- Plans are shown in the place of the items of a list, wherever that is. -/
structure RenewedItems (c : NodeId) (cs : List Cache) (xs : List Exhibit) (ps : List Plan) : Prop where
  held : ∀ e ∈ entriesAll xs, e.1.held ⊆ heldBySlots cs
  renew : ∀ {kept : List NodeId} {L : List Exhibit → Exhibit} {made : List Exhibit} {custody : Custody}
    {is : List Instance} {newSlots : List Cache} {d : Document}, FramingAll kept L →
    custody.Shelters ((Level.mk is cs newSlots d).past 0 (decksOfItems ps).length) c made kept →
    d.Carries c made (L xs) →
    ∃ zs ys xs' d', realizeItems custody ⟨is, cs, newSlots, d⟩ ps = ⟨results xs', [],
        ((Level.mk is cs newSlots d).past 0 (decksOfItems ps).length).shown (slotsOfItems xs') d'⟩ ∧
      ShowsAll xs' ps ∧ d'.Carries c (ys ++ made) (L zs) ∧ Becomes zs ys xs' ∧
      (piecesAll zs).map Prod.fst = (piecesAll xs).map Prod.fst

/-- Where nothing is found again, all is made anew beside what has been on show. -/
theorem renewed_anew (bare : x.entries = []) (spans : ∀ y ∈ x.pieces, y.1.Spans (y.2.map Plant.id)) (fits : p.Fits)
    (headed : p.AllHeaded) (instances : Misses is p.forms) (slots : SlotsMiss cs p.decks) : Renewed c is cs x p where
  held e he := by
    rw [bare] at he
    cases he
  renew := by
    intro kept K made custody newSlots d hK hs g
    by_cases hleaf : ∃ v w, x = .leaf v ∧ p = .leaf w
    · obtain ⟨v, w, rfl, rfl⟩ := hleaf
      exact ⟨.leaf w, [], .leaf w, d, rfl, rfl, g.leaf hK w, .refl fun y hy => (by cases hy), rfl, fun _ w' _ hw =>
        ⟨congrArg leaf (Plan.leaf.inj hw), rfl⟩⟩
    · obtain ⟨y, d', hy, hrealize, hmakes⟩ := made_anew.1 p fits custody ⟨is, cs, newSlots, d⟩
        ⟨g.exposes.sound, instances, slots⟩
      have hspans := spans_of_allHeaded hy fits headed hmakes.presents.ready.sound.forest
        hmakes.presents.ready.loose
      refine ⟨x, [y], y, d', hrealize, hy, g.stocked hmakes hspans (List.mem_append_left _ hs.container)
        (fun e he => ?_) hs.made, .replaced (by rw [entriesAll_singleton, bare]) ?_, rfl, fun v w hv hw =>
        absurd ⟨v, w, hv, hw⟩ hleaf⟩
      · refine List.Subset.trans ((hK.held he).resolve_left ?_) hs.kept
        rw [bare]
        exact List.not_mem_nil
      · rw [piecesAll_singleton, piecesAll_singleton]
        exact List.forall_mem_append.2 ⟨spans, hspans⟩

section Again

variable {i : Instance} {roots : List Plant} {es : List (Binding × Spot)} {space : Markup.Namespace}
  {template : Template} {compiled : Compiled}

/-- An instance that is found again is brought up to date when all is there that is nested in it. It stays where it
is, and nothing is left beside it. -/
theorem RenewedAll.again (holes : RenewedAll c roots compiled.holes es is cs xs ps) (space_ : i.space = space)
    (template_ : i.template = template) (tops : i.block.nodes = roots.map Plant.id)
    (trees : Plant.trees roots = compiled.content) (nodup : (Plant.idsAll roots).Nodup)
    (fits : (Plan.use space template compiled ps).Fits) (headed : compiled.Headed) {kept : List NodeId}
    {K : Exhibit → Exhibit} {made : List Exhibit} {custody : Custody} {newSlots : List Cache} {d : Document}
    (hK : Framing kept K)
    (hs : custody.Shelters ((Level.mk is cs newSlots d).past (formsAll ps).length (decksAll ps).length) c made kept)
    (g : d.Carries c made (K (seated i roots es xs))) :
    ∃ x' d', (Plan.use space template compiled ps).realize custody
        ⟨{ i with bindings := es.map Prod.fst } :: is, cs, newSlots, d⟩ = ⟨x'.result, x'.instances,
          ((Level.mk is cs newSlots d).past (formsAll ps).length (decksAll ps).length).shown x'.slots d'⟩ ∧
      x'.Shows (.use space template compiled ps) ∧ d'.Carries c made (K x') ∧ x'.blocks = [i.block] ∧
      ∀ y ∈ x'.pieces, y.1.Spans (y.2.map Plant.id) := by
  have hfits : ∀ p ∈ ps, p.Fits := by
    cases fits with
    | use _ _ _ hfits _ => exact hfits
  generalize hi : ({ i with bindings := es.map Prod.fst } : Instance) = j at *
  have hj : ∀ e ∈ es, e.1.held ⊆ j.held := fun e he n hn => by
    rw [← hi]
    exact List.mem_append_right _ (List.mem_flatMap.2 ⟨e.1, List.mem_map_of_mem he, hn⟩)
  generalize hlater : (Level.mk is cs newSlots d).past (formsAll ps).length (decksAll ps).length = later at *
  -- what is nested is shown first
  have hinside : (custody.holding j.held).Shelters later c made (kept ++ j.held) :=
    have h : (custody.holding j.held).Shelters later c made kept :=
      hs.mono (List.subset_append_right ..) (List.subset_append_right ..)
    ⟨h.container, h.made, List.append_subset.2 ⟨h.kept, List.Subset.trans (List.subset_append_left ..)
      (List.subset_append_left ..)⟩⟩
  obtain ⟨zs, yss, xs', d₁, hrealize, hshows, g₁, hturns⟩ := @holes.renew hfits (kept ++ j.held)
    (fun xs => K (seated i roots es xs)) made (custody.holding j.held) newSlots d
    (hK.holes i roots (List.subset_append_left ..) fun e he =>
      List.Subset.trans (hj e he) (List.subset_append_right ..)) (hlater ▸ hinside) g
  rw [hlater] at hrealize
  -- then the bindings are brought up to date one after another
  generalize hcustody : (custody.holding ((instancesAll xs').flatMap Instance.held)).holding j.block.held = custody'
  have hnodes : ∀ n, n ∈ custody'.nodes ++ (later.shown (slotsAll xs') d₁).held ↔ (n ∈ j.block.held ∨
      n ∈ (instancesAll xs').flatMap Instance.held ∨ n ∈ custody.nodes) ∨
      n ∈ heldBySlots (slotsAll xs') ∨ n ∈ later.held := fun n => by
    simp only [← hcustody, Custody.holding, List.mem_append, Level.held_shown]
  have hsub : custody.nodes ++ later.held ⊆ custody'.nodes ++ (later.shown (slotsAll xs') d₁).held := fun n hn => by
    rw [hnodes]
    rw [List.mem_append] at hn
    tauto
  have hall : heldAll xs' ⊆ custody'.nodes ++ (later.shown (slotsAll xs') d₁).held := fun n hn => by
    rw [hnodes]
    rw [heldAll, List.mem_append] at hn
    tauto
  obtain ⟨es', d₂, hfill, g₂, hshown⟩ := Document.Carries.refilled (A := []) (l := []) hK
    (later.shown (slotsAll xs') d₁) custody' hturns rfl g₁ (by
      rw [← hcustody]
      exact List.mem_append_right _ (List.mem_append_right _ hs.container))
    (Stock.held_append_subset.2 ⟨List.Subset.trans hturns.held hall, List.Subset.trans hs.made hsub⟩)
    (List.Subset.trans hs.kept hsub) fun e he => List.Subset.trans (entries_held.2 xs' e he).1 hall
  rw [List.nil_append, List.nil_append] at g₂
  have hzip : (es'.map Prod.fst).zip (es'.map Prod.snd) = es' := (List.zip_of_prod rfl rfl).symm
  have hx' : (seated i roots es' xs').Shows (.use space template compiled ps) := by
    refine ⟨space_, template_, tops, trees, nodup, by simp, ?_, hshows⟩
    rw [hzip]
    exact hshown
  have hisOf : j.isOf space template = true := by
    rw [← hi]
    exact Instance.isOf_of_eq space_ template_
  refine ⟨seated i roots es' xs', d₂, ?_, hx', g₂, rfl, ?_⟩
  · rw [Plan.realize, Level.use, Level.take]
    dsimp only
    rw [hrealize]
    dsimp only
    rw [Level.fit, if_pos hisOf]
    dsimp only
    rw [hcustody, show j.bindings = es.map Prod.fst by rw [← hi], hfill, ← hi]
    rfl
  · rw [seated, pieces, List.forall_mem_singleton]
    exact spans_use (i := { i with bindings := es'.map Prod.fst }) hx' headed
      ((g₂.nodup_ids hK).sublist (Plant.sublist_idsAll _))

theorem renewed_again (space_ : i.space = space) (template_ : i.template = template)
    (tops : i.block.nodes = roots.map Plant.id) (trees : Plant.trees roots = compiled.content)
    (nodup : (Plant.idsAll roots).Nodup) (fits : (Plan.use space template compiled ps).Fits)
    (headed : compiled.Headed) (holes : RenewedAll c roots compiled.holes es is cs xs ps) :
    Renewed c ({ i with bindings := es.map Prod.fst } :: is) cs (seated i roots es xs)
      (.use space template compiled ps) where
  held e he n hn := by
    rw [entries_seated, List.mem_append] at he
    rw [List.flatMap_cons, List.append_assoc, List.mem_append]
    exact he.imp (fun he => List.mem_append_right _ (List.mem_flatMap.2 ⟨e.1, List.mem_map_of_mem he, hn⟩))
      fun he => holes.held e he hn
  renew := by
    intro kept K made custody newSlots d hK hs g
    obtain ⟨x', d', hrealize, hx', g', hblocks, hspans⟩ :=
      holes.again space_ template_ tops trees nodup fits headed hK hs g
    refine ⟨x', [], x', d', hrealize, hx', g', .refl ?_, hblocks, fun v w hv => by cases hv⟩
    rwa [piecesAll_singleton]

end Again

theorem renewedAll_nil (roots : List Plant) : RenewedAll c roots [] [] is cs [] [] where
  held e he := by cases he
  renew := by
    intro _ kept L made custody newSlots d _ _ g
    exact ⟨[], [], [], d, rfl, trivial, g, .nil⟩

theorem renewedAll_cons {roots : List Plant} {h : Hole} {e : Binding × Spot} {q : Plan} {holes : List Hole}
    {es : List (Binding × Spot)} (at_ : h.At roots e) (shown : Shown e x.blocks q)
    (bare : q.primitive?.isSome = true → x.pieces = []) (fits : q.Fits)
    (leaf : h.kind ≠ .child → ∃ v w, q = .leaf v ∧ p = .leaf w ∧ x = .leaf v) (head : Renewed c is cs x p)
    (tail : RenewedAll c roots holes es (is.drop p.forms.length) (cs.drop p.decks.length) xs ps) :
    RenewedAll c roots (h :: holes) (e :: es) is cs (x :: xs) (p :: ps) where
  held e' he := by
    rw [entriesAll, List.mem_append] at he
    refine he.elim (head.held e') fun he => List.Subset.trans (tail.held e' he) fun n hn => ?_
    have hsub := Level.held_past ⟨is, cs, [], .empty⟩ p.forms.length p.decks.length
    simp only [Level.held, Level.past, heldBySlots, List.append_nil] at hsub
    exact hsub hn
  renew := by
    intro hfits kept L made custody newSlots d hL hs g
    obtain ⟨hp, hps⟩ := List.forall_mem_cons.1 hfits
    rw [formsAll, decksAll] at hs ⊢
    have hpast : ∀ (newSlots : List Cache) (d : Document), (Level.mk (is.drop p.forms.length) (cs.drop p.decks.length)
        newSlots d).past (formsAll ps).length (decksAll ps).length
        = (Level.mk is cs newSlots d).past (p.forms ++ formsAll ps).length (p.decks ++ decksAll ps).length := by
      intro newSlots d
      simp only [Level.past, List.drop_drop, List.length_append]
    generalize hnext : (Level.mk is cs newSlots d).past p.forms.length p.decks.length = next at *
    generalize hlater : (Level.mk is cs newSlots d).past (p.forms ++ formsAll ps).length (p.decks ++ decksAll ps).length
      = later at *
    have hsub : later.held ⊆ next.held := by
      rw [← hlater, ← hpast, ← hnext]
      exact Level.held_past ((Level.mk is cs newSlots d).past p.forms.length p.decks.length) _ _
    have hxs : ∀ e ∈ entriesAll xs, e.1.held ⊆ next.held := fun e he n hn => by
      rw [← hnext]
      exact List.mem_append_left _ (tail.held e he hn)
    have hshelter : custody.Shelters next c made (kept ++ next.held) :=
      have h := hs.mono (List.Subset.refl _) (List.Subset.trans hsub (List.subset_append_right ..))
      ⟨h.container, h.made, List.append_subset.2 ⟨h.kept, List.subset_append_right ..⟩⟩
    obtain ⟨z, ys, x', d₁, hrealize, hx', g₁, hbecomes, hblocks, hz⟩ := @head.renew (kept ++ next.held)
      (fun x => L (x :: xs)) made custody newSlots d (hL.head xs (List.subset_append_left ..) fun e he =>
        List.Subset.trans (hxs e he) (List.subset_append_right ..)) (hnext ▸ hshelter) g
    rw [hnext] at hrealize
    generalize hcustody : custody.holding (x'.instances.flatMap Instance.held) = custody'
    have hnodes : ∀ n, n ∈ custody'.nodes ++ (later.shown x'.slots d₁).held ↔
        (n ∈ x'.instances.flatMap Instance.held ∨ n ∈ custody.nodes) ∨ n ∈ heldBySlots x'.slots ∨ n ∈ later.held :=
      fun n => by simp only [← hcustody, Custody.holding, List.mem_append, Level.held_shown]
    have hself : x'.held ⊆ custody'.nodes ++ (later.shown x'.slots d₁).held := fun n hn => by
      rw [hnodes]
      rw [Exhibit.held, List.mem_append] at hn
      tauto
    have hout : custody.nodes ++ later.held ⊆ custody'.nodes ++ (later.shown x'.slots d₁).held := fun n hn => by
      rw [hnodes]
      rw [List.mem_append] at hn
      tauto
    have hzx : ∀ e ∈ z.entries, e.1.held ⊆ x'.held := fun e he =>
      entries_held.1 x' e (hbecomes.entries_single he)
    have hlevel : later.shown x'.slots d₁ = (Level.mk (is.drop p.forms.length) (cs.drop p.decks.length)
        (x'.slots.reverse ++ newSlots) d₁).past (formsAll ps).length (decksAll ps).length := by
      rw [hpast, ← hlater]
      rfl
    obtain ⟨zs, yss, xs', d₂, hrealize', hxs', g₂, hturns⟩ := @tail.renew hps (kept ++ x'.held)
      (fun zs => L (z :: zs)) (ys ++ made) custody' (x'.slots.reverse ++ newSlots) d₁
      (hL.tail z (List.subset_append_left ..) fun e he =>
        List.Subset.trans (hzx e he) (List.subset_append_right ..))
      (hlevel ▸ ⟨by
          rw [← hcustody]
          exact List.mem_append_right _ hs.container,
        Stock.held_append_subset.2 ⟨List.Subset.trans hbecomes.held_single hself, List.Subset.trans hs.made hout⟩,
        List.append_subset.2 ⟨List.Subset.trans hs.kept hout, hself⟩⟩) g₁
    rw [← hlevel] at hrealize'
    refine ⟨z :: zs, ys :: yss, x' :: xs', d₂, ?_, ⟨hx', hxs'⟩, ?_, .cons at_ ?_ (fun hq => ?_) fits hbecomes hx' hp
      (fun hne => ?_) hturns⟩
    · rw [realizeAll, hrealize]
      dsimp only
      rw [hcustody, show next.shown x'.slots d₁ = Level.mk (is.drop p.forms.length) (cs.drop p.decks.length)
        (x'.slots.reverse ++ newSlots) d₁ by rw [← hnext]; rfl, hrealize', Level.shown_shown, results, instancesAll,
        slotsAll]
    · refine g₂.perm ?_
      rw [List.flatten_cons, List.append_assoc]
      exact List.perm_append_comm_assoc ..
    · rw [hblocks]
      exact shown
    · have hpieces := bare hq
      rw [blocks, blocks, hpieces] at hblocks
      exact List.map_eq_nil_iff.1 hblocks
    · obtain ⟨v, w, hv, rfl, hx⟩ := leaf hne
      exact ⟨v, w, hv, rfl, hz v w hx rfl⟩

theorem renewed_list (items : RenewedItems c cs xs ps) : Renewed c is cs (.list xs) (.list ps) where
  held e he := List.Subset.trans (items.held e he) (List.subset_append_right ..)
  renew := by
    intro kept K made custody newSlots d hK hs g
    obtain ⟨zs, ys, xs', d', hrealize, hshows, g', hbecomes, hblocks⟩ := @items.renew kept
      (fun xs => K (.list xs)) made custody is newSlots d hK.items hs g
    refine ⟨.list zs, ys, .list xs', d', ?_, hshows, g', hbecomes.list, hblocks, fun v w hv => by cases hv⟩
    rw [Plan.realize, hrealize]
    rfl

theorem renewedItems_rest (bare : entriesAll xs = []) (spans : ∀ y ∈ piecesAll xs, y.1.Spans (y.2.map Plant.id)) :
    RenewedItems c cs xs [] where
  held e he := by
    rw [bare] at he
    cases he
  renew := by
    intro kept L made custody is newSlots d _ _ g
    exact ⟨xs, [], [], d, rfl, trivial, g, .replaced bare (by rwa [piecesAll, List.append_nil]), rfl⟩

theorem renewedItems_more (fits : ∀ p ∈ ps, p.Fits) (headed : PlansHeaded ps)
    (uses : ∀ p ∈ ps, ∃ space template compiled holes, p = .use space template compiled holes)
    (slots : SlotsMiss cs (decksOfItems ps)) : RenewedItems c cs [] ps where
  held e he := by cases he
  renew := by
    intro kept L made custody is newSlots d hL hs g
    obtain ⟨xs', d', hxs', hrealize, hmakes⟩ := (made_anew.2 ps fits).2 uses custody ⟨is, cs, newSlots, d⟩
      ⟨g.exposes.sound, by cases is <;> trivial, slots⟩
    have hspans := spans_of_allHeaded (x := .list xs') (p := .list ps) hxs' (.list fits uses) headed
      hmakes.presents.ready.sound.forest hmakes.presents.ready.loose
    refine ⟨[], [.list xs'], xs', d', hrealize, hxs', g.stocked (y := .list xs') hmakes hspans
      (List.mem_append_left _ hs.container) (fun e he => ?_) hs.made, (Becomes.replaced rfl ?_).asList, rfl⟩
    · exact (hL.held he).elim (fun he => by cases he) fun he => List.Subset.trans he hs.kept
    · rwa [piecesAll, List.nil_append]

/-- An item of a list is renewed on a level of its own, and so is what is left of the list on its level. -/
theorem renewedItems_cons {space : Markup.Namespace} {template : Template} {compiled : Compiled} {holes : List Plan}
    (root : (cs.headD .empty).root = none)
    (head : Renewed c (cs.headD .empty).instances (cs.headD .empty).slots x (.use space template compiled holes))
    (tail : RenewedItems c (cs.drop 1) xs ps) :
    RenewedItems c cs (x :: xs) (.use space template compiled holes :: ps) where
  held e he := by
    rw [entriesAll, List.mem_append] at he
    cases cs with
    | nil => exact he.elim (head.held e) (tail.held e)
    | cons slot cs =>
      obtain ⟨instances, slots, root⟩ := slot
      refine he.elim (fun he n hn => List.mem_append_left _ ?_) fun he n hn =>
        List.mem_append_right _ (tail.held e he hn)
      exact List.mem_append_left _ (head.held e he hn)
  renew := by
    intro kept L made custody is newSlots d hL hs g
    have hleaf : ∀ v, Plan.use space template compiled holes ≠ .leaf v := fun v he => by cases he
    generalize Plan.use space template compiled holes = p at *
    rw [decksOfItems_cons hleaf] at hs ⊢
    generalize hlevel : Level.mk is cs newSlots d = level at *
    have hslot : level.oldSlots = cs ∧ level.document = d := by
      rw [← hlevel]
      exact ⟨rfl, rfl⟩
    have hlast : level.past 0 ([(⟨p.forms, p.decks⟩ : Deck)] ++ decksOfItems ps).length
        = (level.past 0 1).past 0 (decksOfItems ps).length := by
      rw [Level.past_past, List.length_append]
      rfl
    rw [hlast] at hs ⊢
    generalize houtside : custody.holding (level.past 0 1).held = outside
    have hin : custody.nodes ++ ((level.past 0 1).past 0 (decksOfItems ps).length).held ⊆ outside.nodes := by
      rw [← houtside]
      exact List.append_subset.2 ⟨List.subset_append_right ..,
        List.Subset.trans (Level.held_past ..) (List.subset_append_left ..)⟩
    have hothers : (level.past 0 1).held ⊆ outside.nodes := by
      rw [← houtside]
      exact List.subset_append_left ..
    have hxs : ∀ e ∈ entriesAll xs, e.1.held ⊆ (level.past 0 1).held := fun e he n hn => by
      rw [← hlevel]
      exact List.mem_append_left _ (List.mem_append_right _ (tail.held e he hn))
    obtain ⟨z, ys, x', d₁, hrealize, hx', g₁, hbecomes, hblocks, -⟩ := @head.renew (kept ++ (level.past 0 1).held)
      (fun x => L (x :: xs)) made outside [] d (hL.head xs (List.subset_append_left ..) fun e he =>
        List.Subset.trans (hxs e he) (List.subset_append_right ..))
      ⟨hin (List.mem_append_left _ hs.container), List.Subset.trans hs.made (List.Subset.trans hin
        (List.subset_append_left ..)), List.append_subset.2 ⟨List.Subset.trans hs.kept (List.Subset.trans hin
        (List.subset_append_left ..)), List.Subset.trans hothers (List.subset_append_left ..)⟩⟩ g
    have hne := ne_leaf_of_shows hx' hleaf
    rw [← houtside, ← hslot.1, ← hslot.2] at hrealize
    have hitems := Level.realizeItems_item hleaf (by rw [hslot.1]; exact root) hrealize rfl ps
    rw [houtside] at hitems
    -- what is left on the level of the item is let go of
    generalize hcustody : outside.holding x'.held = custody' at hitems
    have hself : x'.held ⊆ custody'.nodes := by
      rw [← hcustody]
      exact List.subset_append_left ..
    have hout : outside.nodes ⊆ custody'.nodes := by
      rw [← hcustody]
      exact List.subset_append_right ..
    have hz : ∀ e ∈ z.entries, e.1.held ⊆ x'.held := fun e he =>
      entries_held.1 x' e (hbecomes.entries_single he)
    have g₂ := g₁.release (hout (hin (List.mem_append_left _ hs.container)))
      (Stock.held_append_subset.2 ⟨List.Subset.trans hbecomes.held_single hself, List.Subset.trans hs.made
        (List.Subset.trans hin hout)⟩) fun e he => by
      rcases hL.held he with he | he
      · rw [entriesAll, List.mem_append] at he
        exact he.elim (fun he => List.Subset.trans (hz e he) hself) fun he =>
          List.Subset.trans (hxs e he) (List.Subset.trans hothers hout)
      · exact List.Subset.trans he (List.Subset.trans hs.kept (List.Subset.trans hin hout))
    generalize d₁.release custody' = d₂ at *
    have hnext : (level.past 0 1).shown [⟨x'.instances, x'.slots, none⟩] d₂
        = ⟨is, cs.drop 1, ⟨x'.instances, x'.slots, none⟩ :: newSlots, d₂⟩ := by
      rw [← hlevel]
      rfl
    have hnodes : ∀ n, n ∈ custody.nodes ++ (((level.past 0 1).past 0 (decksOfItems ps).length).shown
        [⟨x'.instances, x'.slots, none⟩] d₂).held ↔
        n ∈ custody.nodes ∨ n ∈ x'.held ∨ n ∈ ((level.past 0 1).past 0 (decksOfItems ps).length).held := fun n => by
      rw [List.mem_append, Level.held_shown, heldBySlots, heldBySlots, List.append_nil, held_slot]
    have hkept : x'.held ⊆ custody.nodes ++ (((level.past 0 1).past 0 (decksOfItems ps).length).shown
        [⟨x'.instances, x'.slots, none⟩] d₂).held := fun n hn => (hnodes n).2 (.inr (.inl hn))
    have hlater : custody.nodes ++ ((level.past 0 1).past 0 (decksOfItems ps).length).held ⊆ custody.nodes
        ++ (((level.past 0 1).past 0 (decksOfItems ps).length).shown [⟨x'.instances, x'.slots, none⟩] d₂).held :=
      fun n hn => (hnodes n).2 ((List.mem_append.1 hn).imp_right .inr)
    obtain ⟨zs, ys', xs', d₃, hrealize', hxs', g₃, hbecomes', hblocks'⟩ := @tail.renew (kept ++ x'.held)
      (fun zs => L (z :: zs)) (ys ++ made) custody is (⟨x'.instances, x'.slots, none⟩ :: newSlots) d₂
      (hL.tail z (List.subset_append_left ..) fun e he => List.Subset.trans (hz e he) (List.subset_append_right ..))
      (by
        rw [← hnext, Level.shown_past]
        exact ⟨hs.container, Stock.held_append_subset.2 ⟨List.Subset.trans hbecomes.held_single hkept,
          List.Subset.trans hs.made hlater⟩, List.append_subset.2 ⟨List.Subset.trans hs.kept hlater, hkept⟩⟩) g₂
    rw [← hnext, Level.shown_past] at hrealize'
    refine ⟨z :: zs, ys ++ ys', x' :: xs', d₃, ?_, ⟨hx', hxs'⟩, ?_, hbecomes.append hbecomes', ?_⟩
    · rw [hitems, hrealize', Level.shown_shown, slotsOfItems_cons hne, results]
      rfl
    · refine g₃.perm ?_
      rw [List.append_assoc]
      exact List.perm_append_comm_assoc ..
    · rw [piecesAll, piecesAll, List.map_append, List.map_append, hblocks']
      exact congrArg (· ++ _) hblocks

/-- Wherever a plan meets what has been on show, it is shown in its place. -/
theorem Meets.renewed (h : Meets is cs x p) : Renewed c is cs x p := by
  refine @Meets.rec (fun is cs x p _ => Renewed c is cs x p)
    (fun roots holes es is cs xs ps _ => RenewedAll c roots holes es is cs xs ps)
    (fun cs xs ps _ => RenewedItems c cs xs ps) ?anew ?again ?list ?nil ?cons ?rest ?more ?item is cs x p h
  case anew => exact renewed_anew
  case again =>
    intro i is cs roots es xs space template compiled ps hspace htemplate htops htrees hnodup hfits hheaded _ ih
    exact renewed_again hspace htemplate htops htrees hnodup hfits hheaded ih
  case list => exact fun _ ih => renewed_list ih
  case nil => exact renewedAll_nil _
  case cons =>
    intro roots h e is cs x q p holes es xs ps hat hshown hbare hfits hleaf _ _ ihx ihxs
    exact renewedAll_cons hat hshown hbare hfits hleaf ihx ihxs
  case rest => exact renewedItems_rest
  case more => exact renewedItems_more
  case item =>
    intro cs x xs space template compiled holes ps hroot _ _ ihx ihxs
    exact renewedItems_cons hroot ihx ihxs

end Exhibit

end LiveMarkup
