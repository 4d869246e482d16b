import LiveMarkup.Proofs.Document.Exactness
import LiveMarkup.Proofs.Rendering.Listing
import LiveMarkup.Proofs.Rendering.Settling
import LiveMarkup.Proofs.Rendering.Withdrawal
/-!
# Rows that are shown again

A row is an item of a list that uses a template with nothing but values in its holes. When a list of rows is
shown where another one has been, the rows are gone through by position (`realizeItems_turnover`): one for the
same template as before is brought up to date where it stands, one for another template is made anew while what
was there is given up, and one behind the end of the old list is made anew. `Turnover` says so; what is left
of the old rows stands where it stood, and all new rows stand nowhere yet.
-/

namespace LiveMarkup

open Exhibit

/-- The template that a plan is a use of, with its namespace. -/
def Plan.form? : Plan → Option (Markup.Namespace × Template)
  | .use space template _ _ => some (space, template)
  | _ => none

/-- A use of a template whose content begins with a node of its own, with values in all holes. -/
inductive Plan.IsRow : Plan → Prop where
  | use {space : Markup.Namespace} {template : Template} {vs : List Value}
      (fits : (Plan.use space template (template.compilation space).compiled (vs.map .leaf)).Fits)
      (headed : (template.compilation space).compiled.Headed) :
      IsRow (.use space template (template.compilation space).compiled (vs.map .leaf))

namespace Plan.IsRow

variable {p q : Plan}

theorem fits (h : p.IsRow) : p.Fits := by
  cases h with
  | use fits => exact fits

theorem ne_leaf (h : p.IsRow) (v : Value) : p ≠ .leaf v := by
  cases h with
  | use => exact fun he => by cases he

/-- A row asks for an instance of its template and for nothing else. -/
theorem asks (h : p.IsRow) : p.forms = p.form?.toList ∧ p.decks = [] := by
  have hleaves : ∀ vs : List Value, formsAll (vs.map .leaf) = [] ∧ decksAll (vs.map .leaf) = [] := by
    intro vs
    induction vs with
    | nil => exact ⟨rfl, rfl⟩
    | cons v vs ih => rw [List.map_cons, formsAll, decksAll, ih.1, ih.2]; exact ⟨rfl, rfl⟩
  cases h with
  | @use space template vs => rw [Plan.forms, Plan.decks, (hleaves vs).1, (hleaves vs).2]; exact ⟨rfl, rfl⟩

theorem likeAll_leaves : ∀ {vs ws : List Value}, vs.length = ws.length →
    LikeAll (vs.map .leaf) (ws.map .leaf)
  | [], [], _ => trivial
  | _ :: _, _ :: _, h => ⟨trivial, likeAll_leaves (Nat.succ.inj h)⟩

/-- Rows for the same template differ in values alone. -/
theorem like (h : p.IsRow) (h' : q.IsRow) (he : p.form? = q.form?) : p.Like q := by
  cases h with
  | @use space template vs fits =>
    cases h' with
    | @use space' template' ws fits' =>
      obtain ⟨rfl, rfl⟩ := Prod.mk.inj (Option.some.inj he)
      refine ⟨rfl, rfl, rfl, likeAll_leaves ?_⟩
      cases fits with
      | use _ _ hcount =>
        cases fits' with
        | use _ _ hcount' =>
          rw [List.length_map] at hcount hcount'
          exact hcount.symm.trans hcount'

/-- What a row is shown as. -/
theorem exists_use {x : Exhibit} (h : p.IsRow) (hx : x.Shows p) :
    ∃ i roots spots holes, x = .use i roots spots holes ∧ x.instances = [i] ∧ x.slots = [] ∧
      ∀ space template, i.isOf space template = true ↔ p.form? = some (space, template) := by
  cases h with
  | @use space template vs =>
    cases x with
    | leaf | list => exact False.elim hx
    | use i roots spots holes =>
      obtain ⟨hspace, htemplate, -, -, -, -, -, hall⟩ := hx
      have hholes : ∀ (xs : List Exhibit) (vs : List Value), ShowsAll xs (vs.map .leaf) →
          instancesAll xs = [] ∧ slotsAll xs = [] := by
        intro xs
        induction xs with
        | nil => exact fun _ _ => ⟨rfl, rfl⟩
        | cons y xs ih =>
          intro vs hxs
          cases vs with
          | nil => exact False.elim hxs
          | cons v vs =>
            obtain ⟨hinstances, hslots⟩ := ih vs hxs.2
            rw [eq_leaf_of_shows hxs.1, instancesAll, slotsAll, hinstances, hslots]
            exact ⟨rfl, rfl⟩
      obtain ⟨hinstances, hslots⟩ := hholes holes vs hall
      refine ⟨i, roots, spots, holes, rfl, by rw [instances, hinstances], by rw [slots, hslots],
        fun space' template' => ?_⟩
      rw [Instance.isOf, form?, hspace, htemplate]
      simp

end Plan.IsRow

/-! ### Old rows and new ones -/

/-- How some rows take the place of others: the old plans and what they are shown as, the new plans and what
they are shown as, what stands in the place of the old rows then, and what stands nowhere yet. -/
inductive Turnover (d : Document) : List Plan → List Exhibit → List Plan → List Exhibit → List Exhibit →
    List Exhibit → Prop where
  /-- The old rows behind the end of the new list are left alone. -/
  | rest (qs : List Plan) (r : List Exhibit) : Turnover d qs r [] [] r []
  | keep {p q : Plan} {x z : Exhibit} {ps qs : List Plan} {r zs l ys : List Exhibit}
      (form : q.form? = p.form?) (blocks : z.blocks = x.blocks) (rest : Turnover d qs r ps zs l ys) :
      Turnover d (q :: qs) (x :: r) (p :: ps) (z :: zs) (z :: l) ys
  | change {p q : Plan} {x w z : Exhibit} {ps qs : List Plan} {r zs l ys : List Exhibit}
      (form : q.form? ≠ p.form?) (pieces : w.pieces = x.pieces)
      (new : ∀ y ∈ z.pieces, ∀ n, Within y.1.root? y.2 n → ¬ d.Has n) (rest : Turnover d qs r ps zs l ys) :
      Turnover d (q :: qs) (x :: r) (p :: ps) (z :: zs) (w :: l) (z :: ys)
  | add {p : Plan} {z : Exhibit} {ps : List Plan} {zs l ys : List Exhibit}
      (new : ∀ y ∈ z.pieces, ∀ n, Within y.1.root? y.2 n → ¬ d.Has n) (rest : Turnover d [] [] ps zs l ys) :
      Turnover d [] [] (p :: ps) (z :: zs) l (z :: ys)

namespace Turnover

variable {d : Document} {ps qs : List Plan} {r zs l ys : List Exhibit}

/-- All new rows stand in the place of an old one or nowhere. -/
theorem perm (h : Turnover d qs r ps zs l ys) : ∃ rest, (l ++ ys).Perm (zs ++ rest) := by
  induction h with
  | rest qs r => exact ⟨r, by simp⟩
  | keep _ _ _ ih =>
    obtain ⟨rest, h⟩ := ih
    exact ⟨rest, h.cons _⟩
  | @change p q x w z ps qs r zs l ys _ _ _ _ ih =>
    obtain ⟨rest, h⟩ := ih
    refine ⟨w :: rest, ?_⟩
    rw [List.cons_append, List.cons_append]
    exact ((List.perm_middle.trans (h.cons z)).cons w).trans
      ((List.Perm.swap ..).trans (List.perm_middle.symm.cons z))
  | add _ _ ih =>
    obtain ⟨rest, h⟩ := ih
    exact ⟨rest, List.perm_middle.trans (h.cons _)⟩

/-- In the place of each old row stands what has its blocks. -/
theorem blocks_eq (h : Turnover d qs r ps zs l ys) : l.map blocks = r.map blocks := by
  induction h with
  | rest => rfl
  | keep _ hblocks _ ih => rw [List.map_cons, ih, hblocks, List.map_cons]
  | change _ hpieces _ _ ih => rw [List.map_cons, ih, blocks, hpieces, List.map_cons, blocks]
  | add _ _ ih => exact ih

/-- A new row has the blocks of the old one at its position if that is for the same template, and consists of
new nodes otherwise. -/
theorem getElem? (h : Turnover d qs r ps zs l ys) {j : Nat} {z : Exhibit} (hz : zs[j]? = some z) :
    ∃ p, ps[j]? = some p ∧ ((∃ q x, qs[j]? = some q ∧ r[j]? = some x ∧ q.form? = p.form? ∧
        z.blocks = x.blocks) ∨
      ((∀ q, qs[j]? = some q → q.form? ≠ p.form?) ∧
        ∀ y ∈ z.pieces, ∀ n, Within y.1.root? y.2 n → ¬ d.Has n)) := by
  induction h generalizing j with
  | rest => cases hz
  | @keep p q x z ps qs r zs l ys hform hblocks _ ih =>
    cases j with
    | zero =>
      obtain rfl := Option.some.inj hz
      exact ⟨p, rfl, .inl ⟨q, x, rfl, rfl, hform, hblocks⟩⟩
    | succ j => exact ih hz
  | @change p q x w z ps qs r zs l ys hform _ hnew _ ih =>
    cases j with
    | zero =>
      obtain rfl := Option.some.inj hz
      exact ⟨p, rfl, .inr ⟨fun q' hq => Option.some.inj hq ▸ hform, hnew⟩⟩
    | succ j => exact ih hz
  | @add p z ps zs l ys hnew _ ih =>
    cases j with
    | zero =>
      obtain rfl := Option.some.inj hz
      exact ⟨p, rfl, .inr ⟨fun q' hq => (by cases hq), hnew⟩⟩
    | succ j =>
      obtain ⟨p, hp, h⟩ := ih hz
      exact ⟨p, hp, h.imp_left fun ⟨q, x, hq, _⟩ => by cases hq⟩

theorem blocks_subset (h : Turnover d qs r ps zs l ys) :
    zs.flatMap blocks ⊆ l.flatMap blocks ++ ys.flatMap blocks := by
  obtain ⟨rest, hperm⟩ := h.perm
  rw [← List.flatMap_append]
  intro b hb
  obtain ⟨z, hz, hb⟩ := List.mem_flatMap.1 hb
  exact List.mem_flatMap.2 ⟨z, hperm.mem_iff.2 (List.mem_append_left _ hz), hb⟩

/-- Where the first parts of two lists have nothing in common with the second ones, what is common is so by
parts. -/
theorem common_parts {A B L Z : List Block} (hA : ∀ e ∈ A, e ∉ Z) (hL : ∀ e ∈ L, e ∉ B) :
    common (A ++ L) (B ++ Z) = common A B ++ common L Z := by
  have hfirst : common A (B ++ Z) = common A B := common_congr fun e he => by simp [hA e he]
  have hsecond : common L (B ++ Z) = common L Z := common_congr fun e he => by simp [hL e he]
  rw [common_append, hfirst, hsecond]

theorem common_eq_nil {A B : List Block} (h : ∀ e ∈ A, e ∉ B) : common A B = [] :=
  List.filter_eq_nil_iff.2 fun e he => by simp [h e he]

/-- The blocks that stay are in the same order in the old list and in the new one. -/
theorem common_blocks (h : Turnover d qs r ps zs l ys)
    (hnd : (l.flatMap blocks ++ ys.flatMap blocks).Nodup) :
    common (l.flatMap blocks) (zs.flatMap blocks) = common (zs.flatMap blocks) (l.flatMap blocks) := by
  induction h with
  | rest => exact common_eq_nil fun _ _ he => by cases he
  | @keep p q x z ps qs r zs l ys _ _ hrest ih =>
    rw [List.flatMap_cons, List.append_assoc, List.nodup_append] at hnd
    obtain ⟨-, hnd, hapart⟩ := hnd
    have hl : ∀ e ∈ l.flatMap blocks, e ∉ z.blocks := fun e hel he =>
      hapart e he e (List.mem_append_left _ hel) rfl
    have hzs : ∀ e ∈ zs.flatMap blocks, e ∉ z.blocks := fun e hez he =>
      hapart e he e (hrest.blocks_subset hez) rfl
    rw [List.flatMap_cons, List.flatMap_cons, common_parts (fun e he hez => hzs e hez he) hl,
      common_parts (fun e he hel => hl e hel he) hzs, ih hnd]
  | @change p q x w z ps qs r zs l ys _ _ _ hrest ih =>
    rw [List.flatMap_cons, List.flatMap_cons, List.append_assoc, List.nodup_append] at hnd
    obtain ⟨-, hnd, hw⟩ := hnd
    have hnd' : (l.flatMap blocks ++ ys.flatMap blocks).Nodup :=
      hnd.sublist ((List.sublist_append_right ..).append_left _)
    have hwz : ∀ e ∈ w.blocks, e ∉ z.blocks := fun e he hez =>
      hw e he e (List.mem_append_right _ (List.mem_append_left _ hez)) rfl
    have hwzs : ∀ e ∈ w.blocks, e ∉ zs.flatMap blocks := fun e he hez => by
      refine hw e he e ?_ rfl
      rw [List.mem_append, List.mem_append]
      exact (List.mem_append.1 (hrest.blocks_subset hez)).imp_right .inr
    have hlz : ∀ e ∈ l.flatMap blocks, e ∉ z.blocks := fun e hel hez =>
      (List.nodup_append.1 hnd).2.2 e hel e (List.mem_append_left _ hez) rfl
    rw [List.flatMap_cons, List.flatMap_cons, common_parts hwzs hlz,
      common_parts (fun e he hel => hlz e hel he) (fun e he hew => hwzs e hew he), ih hnd',
      common_eq_nil hwz, common_eq_nil fun e he hew => hwz e hew he]
  | @add p z ps zs l ys _ hrest =>
    obtain rfl := List.map_eq_nil_iff.1 hrest.blocks_eq
    rw [List.flatMap_nil]
    exact (common_eq_nil fun _ _ he => by cases he).symm

end Turnover

/-! ### Going through the rows -/

/-- A row leaves nothing out of the document. -/
theorem grows_realize_row {p : Plan} (hp : p.IsRow) (custody : Custody) (level : Level) :
    level.document.Grows (p.realize custody level).level.document := by
  cases hp with
  | @use space template vs =>
    have htake : level.document.Grows
        (level.take space template (template.compilation space).compiled).2.document := by
      rw [Level.take]
      split
      · exact .refl _
      · exact (Document.evolves_createInstance _ space template _).grows
    rw [Plan.realize, Level.use]
    dsimp only
    rw [realizeAll_leaves]
    dsimp only
    generalize level.take space template (template.compilation space).compiled = taken at *
    refine htake.trans (.trans ?_ (Level.evolves_fill ..).grows)
    rw [Level.fit]
    split
    · exact .refl _
    · exact (Document.evolves_createInstance _ space template _).grows.trans (Document.evolves_release ..).grows

section Rows

variable {c : NodeId} {fixed emptied : List NodeId} {stock : Stock} {i : Instance} {roots : List Plant}
  {e : Binding × Spot} {p q : Plan} {x : Exhibit} {l r ys : List Exhibit} {outside : Custody} {d : Document}

/-- A row for the same template as before is brought up to date. -/
theorem keep_row (hp : p.IsRow) (hq : q.IsRow) (hform : q.form? = p.form?) (hx : x.Shows q)
    (g : d.Exposes c fixed stock (listing i roots e (l ++ x :: r))) (hc : c ∈ outside.nodes)
    (he : e.1.held ⊆ outside.nodes) (hentries : ∀ e ∈ entriesAll l ++ entriesAll r, e.1.held ⊆ outside.nodes)
    (hstock : stock.held ⊆ outside.nodes) :
    ∃ (x' : Exhibit) (d' : Document), x'.Shows p ∧
      p.realize outside ⟨x.instances, x.slots, [], d⟩
        = ⟨x'.result, x'.instances, ⟨[], [], x'.slots.reverse, d'⟩⟩ ∧
      (d'.release (outside.holding x'.held)).Exposes c fixed stock (listing i roots e (l ++ x' :: r)) ∧
      x'.blocks = x.blocks := by
  have hK := aroundAll_listing i roots he l r outside.nodes (List.Subset.refl _) hentries
  have hrepeats : Repeats c fixed stock x := repeats.1 x
  obtain ⟨x', d', hx', hrealize, hrenews, hsame⟩ := @hrepeats q p hx (hq.like hp hform) hq.fits hp.fits outside
    [] [] [] d _ _ hK hc hstock (List.subset_append_left ..) g
  rw [List.append_nil, List.append_nil, List.append_nil] at hrealize
  have hsub : outside.nodes ⊆ (outside.holding x'.held).nodes := List.subset_append_right ..
  refine ⟨x', d', hx', hrealize, (hrenews.exposes.release (hsub hc) (List.Subset.trans hstock hsub) ?_).1,
    hsame.blocks⟩
  intro e' he'
  rcases hK.held he' with he' | he'
  · exact List.Subset.trans (entries_held.1 x' e' he') (List.subset_append_left ..)
  · exact List.Subset.trans he' hsub

/-- A row is made anew, where there was none or one for another template. -/
theorem make_row {olds : List Instance} (hp : p.IsRow)
    (holds : olds = [] ∨ ∃ i, olds = [i] ∧ ∀ space template,
      p.form? = some (space, template) → i.isOf space template = false)
    (g : d.Exposes c fixed ⟨ys, emptied⟩ x) (hc : c ∈ outside.nodes)
    (hentries : ∀ e ∈ x.entries, e.1.held ⊆ outside.nodes)
    (hstock : Stock.held ⟨ys, emptied⟩ ⊆ outside.nodes) :
    ∃ (y : Exhibit) (d' : Document), y.Shows p ∧
      p.realize outside ⟨olds, [], [], d⟩ = ⟨y.result, y.instances, ⟨[], [], y.slots.reverse, d'⟩⟩ ∧
      (d'.release (outside.holding y.held)).Exposes c fixed ⟨ys ++ [y], emptied⟩ x ∧
      ∀ z ∈ y.pieces, ∀ n, Within z.1.root? z.2 n → ¬ d.Has n := by
  obtain ⟨y, d', hy, hrealize, hpresents, hnovel⟩ : ∃ (y : Exhibit) (d' : Document), y.Shows p ∧
      p.realize outside ⟨olds, [], [], d⟩ = ⟨y.result, y.instances, ⟨[], [], y.slots.reverse, d'⟩⟩ ∧
      Document.Presents d d' outside.nodes y.pieces y.entries ∧ d.Novel d' y.nodes := by
    obtain ⟨hforms, hdecks⟩ := hp.asks
    have hmisses : Misses olds p.form?.toList := by
      rcases holds with rfl | ⟨i, rfl, hother⟩
      · exact misses_nil _
      · cases hp with
        | use => exact ⟨hother _ _ rfl, misses_nil _⟩
    have hpast : (Level.mk olds [] [] d).past p.forms.length p.decks.length = ⟨[], [], [], d⟩ := by
      rw [hforms, hdecks, Level.past, List.drop_nil]
      rcases holds with rfl | ⟨i, rfl, -⟩
      · rw [List.drop_nil]
      · cases hp with
        | use => rfl
    obtain ⟨y, d', hy, hrealize, hmakes⟩ := made_anew.1 p hp.fits outside ⟨olds, [], [], d⟩
      ⟨g.sound, hforms ▸ hmisses, slotsMiss_nil _⟩
    rw [hpast] at hrealize hmakes
    refine ⟨y, d', hy, ?_, hmakes.presents.mono (List.subset_append_left ..), hmakes.novel⟩
    rw [hrealize, Level.shown, List.append_nil]
  have hsub : outside.nodes ⊆ (outside.holding y.held).nodes := List.subset_append_right ..
  have hself : y.held ⊆ (outside.holding y.held).nodes := List.subset_append_left ..
  have hreleased := hpresents.release hsub
    (fun z hz => List.Subset.trans (pieces_held.1 y z hz) hself)
    fun e he => List.Subset.trans (entries_held.1 y e he) hself
  exact ⟨y, d', hy, hrealize, g.stocked hreleased
    (hnovel.mono (Document.keeps_release (List.Subset.refl _)).nodes_le) hc hentries hstock,
    hpresents.fresh.nodes⟩

end Rows

/-! ### All rows -/

/-- What is held while a row is shown: besides what is held from outside, the slots of the rows behind it and
those of the rows before it. -/
def Custody.amid (custody : Custody) (r : List Exhibit) (newSlots : List Cache) : Custody :=
  custody.holding (heldBySlots (slotsOfItems r) ++ heldBySlots newSlots)

namespace Custody

variable {custody : Custody} {r : List Exhibit} {newSlots : List Cache}

theorem subset_amid : custody.nodes ++ heldBySlots newSlots ⊆ (custody.amid r newSlots).nodes := by
  intro m hm
  rw [amid, holding, List.mem_append, List.mem_append]
  rw [List.mem_append] at hm
  tauto

theorem nodes_subset_amid : custody.nodes ⊆ (custody.amid r newSlots).nodes :=
  List.Subset.trans (List.subset_append_left ..) subset_amid

theorem entries_subset_amid {e : Binding × Spot} (he : e ∈ entriesAll r) :
    e.1.held ⊆ (custody.amid r newSlots).nodes := by
  intro m hm
  rw [amid, holding, List.mem_append, List.mem_append]
  exact .inl (.inl ((entries_held.2 r e he).2 hm))

end Custody

section Run

variable (custody : Custody) (c n : NodeId) (fixed emptied : List NodeId) (i : Instance) (roots : List Plant)
  (b : ChildBinding) (d₀ : Document)

/-- Some rows have been gone through. In their place stands `l`, the old rows `r` are still to come, and `ys`
has been made and stands nowhere yet. -/
structure Midway (qs : List Plan) (r l ys : List Exhibit) (newSlots : List Cache) (d : Document) : Prop where
  root : c ∈ custody.nodes
  binding : (Binding.child b).held ⊆ custody.nodes
  rows : ∀ q ∈ qs, q.IsRow
  shows : ShowsAll r qs
  grows : d₀.Grows d
  exposes : d.Exposes c fixed ⟨ys, emptied⟩ (listing i roots (.child b, .child n []) (l ++ r))
  held : ∀ e ∈ entriesAll l, e.1.held ⊆ custody.nodes ++ heldBySlots newSlots
  stock : Stock.held ⟨ys, emptied⟩ ⊆ custody.nodes ++ heldBySlots newSlots

/-- Rows take the place of those that are still to come. -/
def TurnsOver (ps qs : List Plan) (r l ys : List Exhibit) (newSlots : List Cache) (d : Document) : Prop :=
  ∃ (zs l' ys' : List Exhibit) (d' : Document), Turnover d₀ qs r ps zs l' ys' ∧ ShowsAll zs ps ∧
    realizeItems custody ⟨[], slotsOfItems r, newSlots, d⟩ ps = ⟨results zs, [],
      ⟨[], slotsOfItems (r.drop ps.length), (slotsOfItems zs).reverse ++ newSlots, d'⟩⟩ ∧
    d'.Exposes c fixed ⟨ys ++ ys', emptied⟩ (listing i roots (.child b, .child n []) (l ++ l')) ∧
    d₀.Grows d'

variable {custody c n fixed emptied i roots b d₀} {ps qs : List Plan} {p q : Plan} {x z : Exhibit}
  {r r' l l' ys front made : List Exhibit} {slot : Cache} {newSlots : List Cache} {d d' : Document}

theorem slotsOfItems_row (hq : q.IsRow) (hx : x.Shows q) (xs : List Exhibit) :
    slotsOfItems (x :: xs) = ⟨x.instances, x.slots, none⟩ :: slotsOfItems xs := by
  obtain ⟨i, roots, spots, holes, rfl, -⟩ := hq.exists_use hx
  rfl

theorem held_singleton (z : Exhibit) : Stock.held ⟨[z], []⟩ ⊆ z.held :=
  Stock.held_subset.2 ⟨⟨fun y hy => pieces_held.1 z y (by simpa [piecesAll] using hy),
    fun e he => entries_held.1 z e (by simpa [entriesAll] using he)⟩, List.nil_subset _⟩

namespace Midway

/-- All that is in place, or stands nowhere yet, is held while the next row is shown. -/
theorem entries (h : Midway custody c n fixed emptied i roots b d₀ qs r l ys newSlots d)
    (hl : ∀ e ∈ entriesAll l', e ∈ entriesAll l ++ entriesAll r') :
    ∀ e ∈ (listing i roots (.child b, .child n []) l').entries,
      e.1.held ⊆ (custody.amid r' newSlots).nodes := by
  intro e he
  rw [entries_listing, List.mem_cons] at he
  rcases he with rfl | he
  · exact List.Subset.trans h.binding Custody.nodes_subset_amid
  · rcases List.mem_append.1 (hl e he) with he | he
    · exact List.Subset.trans (h.held e he) Custody.subset_amid
    · exact Custody.entries_subset_amid he

/-- A row has been shown in the next slot. -/
theorem next (h : Midway custody c n fixed emptied i roots b d₀ qs r l ys newSlots d) (hp : p.IsRow)
    {qs' : List Plan} (hqs : ∀ q ∈ qs', q.IsRow) (hr : ShowsAll r' qs') {olds : List Instance}
    {slots : List Cache} (hrealize : p.realize (custody.amid r' newSlots) ⟨olds, slots, [], d⟩
      = ⟨z.result, z.instances, ⟨[], [], z.slots.reverse, d'⟩⟩)
    (g : (d'.release ((custody.amid r' newSlots).holding z.held)).Exposes c fixed ⟨ys ++ made, emptied⟩
      (listing i roots (.child b, .child n []) (l ++ front ++ r')))
    (hfront : ∀ e ∈ entriesAll front, e.1.held ⊆ z.held) (hmade : Stock.held ⟨made, []⟩ ⊆ z.held) :
    Midway custody c n fixed emptied i roots b d₀ qs' r' (l ++ front) (ys ++ made)
      (⟨z.instances, z.slots, none⟩ :: newSlots)
      (d'.release ((custody.amid r' newSlots).holding z.held)) := by
  have hheld : heldBySlots (⟨z.instances, z.slots, none⟩ :: newSlots) = z.held ++ heldBySlots newSlots := by
    simp [heldBySlots, Cache.held, Exhibit.held]
  have hold : custody.nodes ++ heldBySlots newSlots
      ⊆ custody.nodes ++ heldBySlots (⟨z.instances, z.slots, none⟩ :: newSlots) := by
    rw [hheld]
    exact List.append_subset.2 ⟨List.subset_append_left .., List.Subset.trans (List.subset_append_right ..)
      (List.subset_append_right ..)⟩
  have hself : z.held ⊆ custody.nodes ++ heldBySlots (⟨z.instances, z.slots, none⟩ :: newSlots) := by
    rw [hheld]
    exact List.Subset.trans (List.subset_append_left ..) (List.subset_append_right ..)
  have hrow := grows_realize_row hp (custody.amid r' newSlots) ⟨olds, slots, [], d⟩
  rw [hrealize] at hrow
  refine ⟨h.root, h.binding, hqs, hr, (h.grows.trans hrow).trans (Document.evolves_release ..).grows, g,
    fun e he => ?_, Stock.held_append_subset.2 ⟨List.Subset.trans h.stock hold, List.Subset.trans hmade hself⟩⟩
  rw [entriesAll_append, List.mem_append] at he
  exact he.elim (fun he => List.Subset.trans (h.held e he) hold)
    fun he => List.Subset.trans (hfront e he) hself

end Midway

/-- What the rows behind the next one turn over to follows what that one is shown as. -/
theorem realizeItems_row {zs : List Exhibit} {held : List Cache} (hp : p.IsRow) (hz : z.Shows p)
    (htake : Level.takeSlot ⟨[], slotsOfItems r, newSlots, d⟩ = (slot, ⟨[], slotsOfItems r', newSlots, d⟩))
    (hroot : slot.root = none)
    (hrealize : p.realize (custody.amid r' newSlots) ⟨slot.instances, slot.slots, [], d⟩
      = ⟨z.result, z.instances, ⟨[], [], z.slots.reverse, d'⟩⟩) {d'' : Document}
    (hrest : realizeItems custody ⟨[], slotsOfItems r', ⟨z.instances, z.slots, none⟩ :: newSlots,
        d'.release ((custody.amid r' newSlots).holding z.held)⟩ ps
      = ⟨results zs, [], ⟨[], held, (slotsOfItems zs).reverse
          ++ ⟨z.instances, z.slots, none⟩ :: newSlots, d''⟩⟩) :
    realizeItems custody ⟨[], slotsOfItems r, newSlots, d⟩ (p :: ps) = ⟨results (z :: zs), [],
      ⟨[], held, (slotsOfItems (z :: zs)).reverse ++ newSlots, d''⟩⟩ := by
  rw [realizeItems_slot hp.ne_leaf htake hroot hrealize ⟨rfl, rfl⟩, slotsOfItems_row hp hz, results]
  exact (congrArg (fun others : Realized (List Value) =>
    (⟨z.result :: others.result, [], others.level⟩ : Realized (List Value))) hrest).trans (by simp)

namespace Midway

variable (ih : ∀ {qs : List Plan} {r l ys : List Exhibit} {newSlots : List Cache} {d : Document},
  Midway custody c n fixed emptied i roots b d₀ qs r l ys newSlots d →
    TurnsOver custody c n fixed emptied i roots b d₀ ps qs r l ys newSlots d)

include ih

/-- A row is made behind the end of the old list. -/
theorem add (h : Midway custody c n fixed emptied i roots b d₀ [] [] l ys newSlots d) (hp : p.IsRow) :
    TurnsOver custody c n fixed emptied i roots b d₀ (p :: ps) [] [] l ys newSlots d := by
  obtain ⟨z, d', hz, hrealize, g, hnew⟩ := make_row hp (.inl rfl) h.exposes
    (Custody.nodes_subset_amid h.root) (h.entries fun e he => by rwa [← entriesAll_append])
    (List.Subset.trans h.stock Custody.subset_amid)
  have g' : (d'.release ((custody.amid [] newSlots).holding z.held)).Exposes c fixed ⟨ys ++ [z], emptied⟩
      (listing i roots (.child b, .child n []) (l ++ [] ++ [])) := by rwa [List.append_nil l]
  have htake : Level.takeSlot ⟨[], slotsOfItems [], newSlots, d⟩
      = (.empty, ⟨[], slotsOfItems [], newSlots, d⟩) := rfl
  obtain ⟨zs, l', ys', d'', hturn, hzs, hrest, hexposes, hgrown⟩ := ih (h.next hp h.rows h.shows
    hrealize g' (List.forall_mem_nil _) (held_singleton z))
  rw [List.append_nil] at hexposes
  rw [List.append_assoc] at hexposes
  rw [List.drop_nil] at hrest
  exact ⟨z :: zs, l', z :: ys', d'', .add (fun y hy m hm hhas => hnew y hy m hm (h.grows.has hhas)) hturn,
    ⟨hz, hzs⟩, realizeItems_row hp hz htake rfl hrealize hrest, hexposes, hgrown⟩

/-- A row is kept that is for the same template as before. -/
theorem keep (h : Midway custody c n fixed emptied i roots b d₀ (q :: qs) (x :: r) l ys newSlots d)
    (hp : p.IsRow) (hform : q.form? = p.form?) :
    TurnsOver custody c n fixed emptied i roots b d₀ (p :: ps) (q :: qs) (x :: r) l ys newSlots d := by
  obtain ⟨hq, hqs⟩ := List.forall_mem_cons.1 h.rows
  obtain ⟨z, d', hz, hrealize, g, hblocks⟩ := keep_row hp hq hform h.shows.1 h.exposes
    (Custody.nodes_subset_amid h.root) (List.Subset.trans h.binding Custody.nodes_subset_amid)
    (fun e he => (List.mem_append.1 he).elim (fun he => List.Subset.trans (h.held e he) Custody.subset_amid)
      Custody.entries_subset_amid) (List.Subset.trans h.stock Custody.subset_amid)
  have g' : (d'.release ((custody.amid r newSlots).holding z.held)).Exposes c fixed ⟨ys ++ [], emptied⟩
      (listing i roots (.child b, .child n []) (l ++ [z] ++ r)) := by
    rwa [List.append_nil, List.append_assoc, List.singleton_append]
  have htake : Level.takeSlot ⟨[], slotsOfItems (x :: r), newSlots, d⟩
      = (⟨x.instances, x.slots, none⟩, ⟨[], slotsOfItems r, newSlots, d⟩) := by
    rw [slotsOfItems_row hq h.shows.1]
    rfl
  obtain ⟨zs, l', ys', d'', hturn, hzs, hrest, hexposes, hgrown⟩ := ih (h.next hp hqs
    h.shows.2 hrealize g' (fun e he => entries_held.1 z e (by simpa [entriesAll] using he))
    (List.nil_subset _))
  rw [List.append_nil, List.append_assoc] at hexposes
  exact ⟨z :: zs, z :: l', ys', d'', .keep hform hblocks hturn, ⟨hz, hzs⟩,
    realizeItems_row hp hz htake rfl hrealize hrest, hexposes, hgrown⟩

/-- A row is made in the slot of one for another template, which is given up. -/
theorem change (h : Midway custody c n fixed emptied i roots b d₀ (q :: qs) (x :: r) l ys newSlots d)
    (hp : p.IsRow) (hform : q.form? ≠ p.form?) :
    TurnsOver custody c n fixed emptied i roots b d₀ (p :: ps) (q :: qs) (x :: r) l ys newSlots d := by
  obtain ⟨hq, hqs⟩ := List.forall_mem_cons.1 h.rows
  obtain ⟨j, tops, spots, holes, hx, hinstances, hslots, hof⟩ := hq.exists_use h.shows.1
  have hidle : x.idle.entries = [] := by rw [hx, entries_idle]
  have hpieces : x.idle.pieces = x.pieces := by rw [hx, pieces_idle]
  have hother : ∀ space template, p.form? = some (space, template) → j.isOf space template = false := by
    intro space template he
    cases hother : j.isOf space template with
    | false => rfl
    | true => exact absurd (((hof space template).1 hother).trans he.symm) hform
  obtain ⟨z, d', hz, hrealize, g, hnew⟩ := make_row hp (.inr ⟨j, rfl, hother⟩)
    (h.exposes.give_up_item ⟨j, tops, spots, holes, hx⟩) (Custody.nodes_subset_amid h.root)
    (h.entries fun e he => by rwa [entriesAll_append, entriesAll, hidle, List.nil_append] at he)
    (List.Subset.trans h.stock Custody.subset_amid)
  replace hrealize : p.realize (custody.amid r newSlots) ⟨x.instances, x.slots, [], d⟩
      = ⟨z.result, z.instances, ⟨[], [], z.slots.reverse, d'⟩⟩ := by
    rw [hinstances, hslots]
    exact hrealize
  have g' : (d'.release ((custody.amid r newSlots).holding z.held)).Exposes c fixed ⟨ys ++ [z], emptied⟩
      (listing i roots (.child b, .child n []) (l ++ [x.idle] ++ r)) := by
    rwa [List.append_assoc, List.singleton_append]
  have htake : Level.takeSlot ⟨[], slotsOfItems (x :: r), newSlots, d⟩
      = (⟨x.instances, x.slots, none⟩, ⟨[], slotsOfItems r, newSlots, d⟩) := by
    rw [slotsOfItems_row hq h.shows.1]
    rfl
  obtain ⟨zs, l', ys', d'', hturn, hzs, hrest, hexposes, hgrown⟩ := ih (h.next hp hqs
    h.shows.2 hrealize g' (fun e he => by rw [entriesAll, hidle] at he; cases he) (held_singleton z))
  rw [List.append_assoc ys, List.append_assoc l] at hexposes
  exact ⟨z :: zs, x.idle :: l', z :: ys', d'', .change hform hpieces
    (fun y hy m hm hhas => hnew y hy m hm (h.grows.has hhas)) hturn, ⟨hz, hzs⟩,
    realizeItems_row hp hz htake rfl hrealize hrest, hexposes, hgrown⟩

end Midway

/-- The rows of a list are gone through by position, each with its slot. -/
theorem Midway.turnsOver (h : Midway custody c n fixed emptied i roots b d₀ qs r l ys newSlots d)
    (hps : ∀ p ∈ ps, p.IsRow) : TurnsOver custody c n fixed emptied i roots b d₀ ps qs r l ys newSlots d := by
  induction ps generalizing qs r l ys newSlots d with
  | nil => exact ⟨[], r, [], d, .rest qs r, trivial, rfl, by simpa using h.exposes, h.grows⟩
  | cons p ps ih =>
    obtain ⟨hp, hps⟩ := List.forall_mem_cons.1 hps
    cases r with
    | nil =>
      cases qs with
      | nil => exact h.add (fun h => ih h hps) hp
      | cons => exact False.elim h.shows
    | cons x r =>
      cases qs with
      | nil => exact False.elim h.shows
      | cons q qs =>
        by_cases hform : q.form? = p.form?
        · exact h.keep (fun h => ih h hps) hp hform
        · exact h.change (fun h => ih h hps) hp hform

end Run

end LiveMarkup
