import LiveMarkup.Proofs.Rendering.Refilling
/-!
# Showing a plan again

A plan that has been shown on a level is followed by one that differs in values alone. Each use of a
template then takes the instance it took before, each item of a list its slot, and what is on show is
brought up to date without making anything anew (`Document.Renews`). The proof follows the exhibit of the
first plan: what is nested in the holes of a use is up to date before the use itself is (`repeats_use`), and
what is around it is carried along (`Exhibit.Around`).
-/

namespace LiveMarkup

mutual

/-- The blocks of all instances of a cache. -/
def Cache.blocks : Cache → List Block
  | ⟨instances, slots, _⟩ => instances.map Instance.block ++ blocksOfSlots slots

/-- The blocks of all instances of some caches. -/
def blocksOfSlots : List Cache → List Block
  | [] => []
  | slot :: rest => slot.blocks ++ blocksOfSlots rest

end

theorem blocksOfSlots_append (slots slots' : List Cache) :
    blocksOfSlots (slots ++ slots') = blocksOfSlots slots ++ blocksOfSlots slots' := by
  induction slots with
  | nil => rfl
  | cons slot rest ih => rw [List.cons_append, blocksOfSlots, ih, blocksOfSlots, List.append_assoc]

namespace Level

variable {level : Level} {instances : List Instance} {slots : List Cache} {d : Document} {n : NodeId}

/-- What is left of a level when some of its instances and slots have been taken. -/
theorem mem_held_mk {newSlots : List Cache} : n ∈ held ⟨instances, slots, newSlots, d⟩ ↔
    n ∈ instances.flatMap Instance.held ∨ n ∈ heldBySlots slots ∨ n ∈ heldBySlots newSlots := by
  rw [held, List.mem_append, List.mem_append, or_assoc]

end Level

theorem mem_heldBySlots_reverse {slots : List Cache} {n : NodeId} :
    n ∈ heldBySlots slots.reverse ↔ n ∈ heldBySlots slots := by
  induction slots with
  | nil => rfl
  | cons slot rest ih =>
    simp only [List.reverse_cons, Exhibit.heldBySlots_append, heldBySlots, List.mem_append,
      List.append_nil, ih]
    exact or_comm

namespace Exhibit

/-- Two exhibits have the same blocks. -/
structure SameBlocks (x x' : Exhibit) : Prop where
  blocks : x'.blocks = x.blocks
  instances : x'.instances.map Instance.block = x.instances.map Instance.block
  slots : blocksOfSlots x'.slots = blocksOfSlots x.slots

variable {x x' : Exhibit} {xs xs' : List Exhibit}

theorem blocksOfSlots_slotsOfItems_cons (x : Exhibit) (xs : List Exhibit) :
    blocksOfSlots (slotsOfItems (x :: xs))
      = x.instances.map Instance.block ++ blocksOfSlots x.slots ++ blocksOfSlots (slotsOfItems xs) := by
  cases x with
  | leaf value => simp [slotsOfItems, blocksOfSlots, instances, slots]
  | use i roots spots holes => simp [slotsOfItems, blocksOfSlots, Cache.blocks]
  | list items => simp [slotsOfItems, blocksOfSlots, Cache.blocks]

theorem blocks_of_sameBlocks (h : List.Forall₂ SameBlocks xs xs') :
    xs'.map blocks = xs.map blocks ∧
      (instancesAll xs').map Instance.block = (instancesAll xs).map Instance.block ∧
      blocksOfSlots (slotsAll xs') = blocksOfSlots (slotsAll xs) ∧
      (piecesAll xs').map Prod.fst = (piecesAll xs).map Prod.fst ∧
      blocksOfSlots (slotsOfItems xs') = blocksOfSlots (slotsOfItems xs) := by
  induction h with
  | nil => exact ⟨rfl, rfl, rfl, rfl, rfl⟩
  | @cons x x' xs xs' hx _ ih =>
    obtain ⟨hblocks, hinstances, hslots, hpieces, hitems⟩ := ih
    have hpiece : x'.pieces.map Prod.fst = x.pieces.map Prod.fst := hx.blocks
    simp only [List.map_cons, instancesAll, slotsAll, piecesAll, List.map_append, blocksOfSlots_append,
      blocksOfSlots_slotsOfItems_cons, hblocks, hinstances, hslots, hpieces, hitems, hx.blocks,
      hx.instances, hx.slots, hpiece, and_self]

/-- What is around some exhibits that are next to each other. -/
def AroundAll (kept : List NodeId) (K : List Exhibit → Exhibit) : Prop :=
  ∀ l r kept', kept ⊆ kept' → (∀ e ∈ entriesAll l ++ entriesAll r, e.1.held ⊆ kept') →
    Around kept' fun x => K (l ++ x :: r)

namespace AroundAll

variable {kept kept' : List NodeId} {K : List Exhibit → Exhibit}

theorem tail (h : AroundAll kept K) (x : Exhibit) (hsub : kept ⊆ kept') (hx : x.held ⊆ kept') :
    AroundAll kept' fun xs => K (x :: xs) := by
  intro l r kept'' hsub' hes
  refine h (x :: l) r kept'' (List.Subset.trans hsub hsub') fun e he => ?_
  rw [entriesAll, List.append_assoc, List.mem_append] at he
  exact he.elim (fun he => List.Subset.trans (entries_held.1 x e he) (List.Subset.trans hx hsub')) (hes e)

theorem head (h : AroundAll kept K) (xs : List Exhibit) (hsub : kept ⊆ kept')
    (hxs : ∀ e ∈ entriesAll xs, e.1.held ⊆ kept') : Around kept' fun x => K (x :: xs) :=
  h [] xs kept' hsub hxs

end AroundAll

theorem Around.holes {kept : List NodeId} {K : Exhibit → Exhibit} (h : Around kept K) (i : Instance)
    (roots : List Plant) {es : List (Binding × Spot)} {kept' : List NodeId} (hsub : kept ⊆ kept')
    (hes : ∀ e ∈ es, e.1.held ⊆ kept') : AroundAll kept' fun xs => K (seated i roots es xs) := by
  intro l r kept'' hsub' hlr
  refine (h.mono (List.Subset.trans hsub hsub')).hole i roots fun e he => ?_
  rw [List.append_assoc, List.mem_append] at he
  exact he.elim (fun he => List.Subset.trans (hes e he) hsub') (hlr e)

theorem Around.items {kept : List NodeId} {K : Exhibit → Exhibit} (h : Around kept K) :
    AroundAll kept fun xs => K (.list xs) :=
  fun _ _ _ hsub hlr => (h.mono hsub).item hlr

end Exhibit

theorem Plan.like_leaf_iff {p p' : Plan} (h : p.Like p') : (∃ v, p = .leaf v) ↔ ∃ v, p' = .leaf v := by
  cases p <;> cases p' <;> first | exact False.elim h | simp

open Exhibit

namespace Document

variable {d d' d'' : Document} {c : NodeId} {fixed : List NodeId} {stock : Stock} {x x' : Exhibit} {m n : Nat}

/-- An exhibit has come to be exposed, nothing but texts has been moved, and the number of changes is
bounded. -/
structure Renews (d d' : Document) (c : NodeId) (fixed : List NodeId) (stock : Stock) (x : Exhibit) (n : Nat) :
    Prop where
  exposes : d'.Exposes c fixed stock x
  steady : d.Steady d' c fixed
  mutations : d'.mutations ≤ d.mutations + 2 * n

namespace Renews

theorem refl (h : d.Exposes c fixed stock x) : d.Renews d c fixed stock x 0 :=
  ⟨h, .refl d c fixed, Nat.le_refl _⟩

theorem trans (h : d.Renews d' c fixed stock x m) (h' : d'.Renews d'' c fixed stock x' n) (hf : d.Forest) :
    d.Renews d'' c fixed stock x' (m + n) where
  exposes := h'.exposes
  steady := h.steady.trans h'.steady hf
  mutations := by
    have hd := h.mutations
    have hd' := h'.mutations
    omega

theorem mono (h : d.Renews d' c fixed stock x m) (hle : m ≤ n) : d.Renews d' c fixed stock x n where
  exposes := h.exposes
  steady := h.steady
  mutations := by
    have hd := h.mutations
    omega

theorem release (h : d.Renews d' c fixed stock x n) (custody : Custody) (hf : d.Forest)
    (hc : c ∈ custody.nodes) (hstock : stock.held ⊆ custody.nodes) (hheld : ∀ e ∈ x.entries, e.1.held ⊆ custody.nodes) :
    d.Renews (d'.release custody) c fixed stock x n := by
  obtain ⟨hexposes, hsteady⟩ := h.exposes.release hc hstock hheld
  exact ⟨hexposes, h.steady.trans hsteady hf, by rw [mutations_release]; exact h.mutations⟩

end Renews

end Document

/-! ### Showing plans again -/

variable (c : NodeId) (fixed : List NodeId) (stock : Stock)

/-- An exhibit is brought up to date by a plan that differs in values from what it shows, wherever it
is. -/
def Repeats (x : Exhibit) : Prop :=
  ∀ {p p' : Plan}, x.Shows p → p.Like p' → p.Fits → p'.Fits →
    ∀ {custody : Custody} {instances : List Instance} {slots newSlots : List Cache} {d : Document}
      {kept : List NodeId} {K : Exhibit → Exhibit}, Around kept K → c ∈ custody.nodes →
      stock.held ⊆ kept → kept ⊆ custody.nodes ++ Level.held ⟨instances, slots, newSlots, d⟩ → d.Exposes c fixed stock (K x) →
      ∃ x' d', x'.Shows p' ∧
        p'.realize custody ⟨x.instances ++ instances, x.slots ++ slots, newSlots, d⟩
          = ⟨x'.result, x'.instances, instances, slots, x'.slots.reverse ++ newSlots, d'⟩ ∧
        d.Renews d' c fixed stock (K x') (p.inner p') ∧ x.SameBlocks x'

/-- The items of a list are brought up to date, wherever the list is. -/
def RepeatsItems (xs : List Exhibit) : Prop :=
  ∀ {ps ps' : List Plan}, ShowsAll xs ps → Plan.LikeAll ps ps' → (∀ p ∈ ps, p.Fits) →
    (∀ p ∈ ps', p.Fits) →
    ∀ {custody : Custody} {instances : List Instance} {slots newSlots : List Cache} {d : Document}
      {kept : List NodeId} {K : List Exhibit → Exhibit}, AroundAll kept K → c ∈ custody.nodes →
      stock.held ⊆ kept → kept ⊆ custody.nodes ++ Level.held ⟨instances, slots, newSlots, d⟩ → d.Exposes c fixed stock (K xs) →
      ∃ xs' d', ShowsAll xs' ps' ∧
        realizeItems custody ⟨instances, slotsOfItems xs ++ slots, newSlots, d⟩ ps'
          = ⟨results xs', [], instances, slots, (slotsOfItems xs').reverse ++ newSlots, d'⟩ ∧
        d.Renews d' c fixed stock (K xs') (Plan.innerAll ps ps') ∧ List.Forall₂ SameBlocks xs xs'

/-- What is nested in some holes is brought up to date, wherever they are. -/
def RepeatsAll (xs : List Exhibit) : Prop :=
  ∀ {ps ps' : List Plan}, ShowsAll xs ps → Plan.LikeAll ps ps' → (∀ p ∈ ps, p.Fits) →
    (∀ p ∈ ps', p.Fits) →
    ∀ {custody : Custody} {instances : List Instance} {slots newSlots : List Cache} {d : Document}
      {kept : List NodeId} {K : List Exhibit → Exhibit}, AroundAll kept K → c ∈ custody.nodes →
      stock.held ⊆ kept → kept ⊆ custody.nodes ++ Level.held ⟨instances, slots, newSlots, d⟩ → d.Exposes c fixed stock (K xs) →
      ∃ xs' d', ShowsAll xs' ps' ∧
        realizeAll custody ⟨instancesAll xs ++ instances, slotsAll xs ++ slots, newSlots, d⟩ ps'
          = ⟨results xs', instancesAll xs', instances, slots, (slotsAll xs').reverse ++ newSlots, d'⟩ ∧
        d.Renews d' c fixed stock (K xs') (Plan.innerAll ps ps') ∧ List.Forall₂ SameBlocks xs xs'

variable {c fixed stock} {x : Exhibit} {xs : List Exhibit}

/-- A value takes the place of another one. -/
theorem Document.Exposes.leaf {d : Document} {kept : List NodeId} {K : Exhibit → Exhibit} {v : Value}
    (g : d.Exposes c fixed stock (K (.leaf v))) (hK : Around kept K) (w : Value) :
    d.Exposes c fixed stock (K (.leaf w)) :=
  g.matches_ (hK.matches_ ⟨rfl, rfl, rfl, fun _ => trivial, fun _ => ⟨w, rfl⟩⟩)

theorem repeats_leaf (v : Value) : Repeats c fixed stock (.leaf v) := by
  intro p p' hx hlike hfits hfits' custody instances slots newSlots d kept K hK hc hstock hkept g
  cases p with
  | use | list => exact False.elim hx
  | leaf u =>
    obtain ⟨w, rfl⟩ := Plan.eq_leaf_of_like hlike
    exact ⟨.leaf w, d, rfl, rfl, .refl (g.leaf hK w), rfl, rfl, rfl⟩

theorem repeatsAll_nil : RepeatsAll c fixed stock [] := by
  intro ps ps' hx hlike hfits hfits' custody instances slots newSlots d kept K hK hc hstock hkept g
  cases ps with
  | cons => exact False.elim hx
  | nil =>
    cases ps' with
    | cons => exact False.elim hlike
    | nil => exact ⟨[], d, trivial, rfl, .refl g, .nil⟩

theorem repeatsItems_nil : RepeatsItems c fixed stock [] := by
  intro ps ps' hx hlike hfits hfits' custody instances slots newSlots d kept K hK hc hstock hkept g
  cases ps with
  | cons => exact False.elim hx
  | nil =>
    cases ps' with
    | cons => exact False.elim hlike
    | nil => exact ⟨[], d, trivial, rfl, .refl g, .nil⟩

theorem repeatsAll_cons (hx : Repeats c fixed stock x) (hxs : RepeatsAll c fixed stock xs) :
    RepeatsAll c fixed stock (x :: xs) := by
  intro ps ps' hshows hlike hfits hfits' custody instances slots newSlots d kept K hK hc hstock hkept g
  cases ps with
  | nil => exact False.elim hshows
  | cons p ps =>
    cases ps' with
    | nil => exact False.elim hlike
    | cons p' ps' =>
      rw [List.forall_mem_cons] at hfits hfits'
      have hkept₁ : kept ++ heldAll xs ⊆ custody.nodes
          ++ Level.held ⟨instancesAll xs ++ instances, slotsAll xs ++ slots, newSlots, d⟩ := by
        intro n hn
        rw [List.mem_append] at hn
        rw [List.mem_append, Level.mem_held_mk, heldBySlots_append, List.flatMap_append, List.mem_append,
          List.mem_append]
        rcases hn with hn | hn
        · have hn := hkept hn
          rw [List.mem_append, Level.mem_held_mk] at hn
          tauto
        · rw [heldAll, List.mem_append] at hn
          tauto
      obtain ⟨x', d₁, hx', hrealize, hrenews, hsame⟩ := hx hshows.1 hlike.1 hfits.1 hfits'.1
        (hK.head xs (List.subset_append_left ..) fun e he =>
          List.Subset.trans (entries_held.2 xs e he).1 (List.subset_append_right ..)) hc
        (List.Subset.trans hstock (List.subset_append_left ..)) hkept₁ g
      have hkept₂ : kept ++ x'.held ⊆ (custody.holding (x'.instances.flatMap Instance.held)).nodes
          ++ Level.held ⟨instances, slots, x'.slots.reverse ++ newSlots, d₁⟩ := by
        intro n hn
        rw [List.mem_append] at hn
        rw [Custody.holding, List.mem_append, List.mem_append, Level.mem_held_mk, heldBySlots_append,
          List.mem_append, mem_heldBySlots_reverse]
        rcases hn with hn | hn
        · have hn := hkept hn
          rw [List.mem_append, Level.mem_held_mk] at hn
          tauto
        · rw [held, List.mem_append] at hn
          tauto
      obtain ⟨xs', d₂, hxs', hrealizeAll, hrenewsAll, hsameAll⟩ := hxs hshows.2 hlike.2 hfits.2 hfits'.2
        (hK.tail x' (List.subset_append_left ..) (List.subset_append_right ..))
        (List.mem_append_right _ hc) (List.Subset.trans hstock (List.subset_append_left ..)) hkept₂
        hrenews.exposes
      refine ⟨x' :: xs', d₂, ⟨hx', hxs'⟩, ?_, hrenews.trans hrenewsAll g.sound.forest,
        .cons hsame hsameAll⟩
      rw [realizeAll, instancesAll, slotsAll, List.append_assoc, List.append_assoc, hrealize]
      dsimp only
      rw [hrealizeAll, results, instancesAll, slotsAll, List.reverse_append, List.append_assoc]

/-- An item of a list is brought up to date in its slot. -/
theorem repeatsItems_cons (hx : Repeats c fixed stock x) (hxs : RepeatsItems c fixed stock xs) :
    RepeatsItems c fixed stock (x :: xs) := by
  intro ps ps' hshows hlike hfits hfits' custody instances slots newSlots d kept K hK hc hstock hkept g
  cases ps with
  | nil => exact False.elim hshows
  | cons p ps =>
    cases ps' with
    | nil => exact False.elim hlike
    | cons p' ps' =>
      rw [List.forall_mem_cons] at hfits hfits'
      have hhead : Around (kept ++ heldBySlots (slotsOfItems xs)) fun x => K (x :: xs) :=
        hK.head xs (List.subset_append_left ..) fun e he =>
          List.Subset.trans (entries_held.2 xs e he).2 (List.subset_append_right ..)
      by_cases hleaf : ∃ v, x = .leaf v
      · obtain ⟨v, rfl⟩ := hleaf
        obtain ⟨hshows, hrest⟩ := hshows
        cases p with
        | use | list => exact False.elim hshows
        | leaf u =>
          obtain ⟨w, rfl⟩ := Plan.eq_leaf_of_like hlike.1
          obtain ⟨xs', d', hshows', hrealize, hrenews, hsame⟩ := hxs hrest hlike.2 hfits.2 hfits'.2
            (hK.tail (.leaf w) (List.Subset.refl _) (List.nil_subset _)) hc hstock hkept (g.leaf hhead w)
          refine ⟨.leaf w :: xs', d', ⟨rfl, hshows'⟩, ?_, ?_, .cons ⟨rfl, rfl, rfl⟩ hsame⟩
          · rw [realizeItems, slotsOfItems, hrealize, results, result, slotsOfItems]
          · rw [Plan.innerAll]
            exact hrenews.mono (Nat.le_add_left _ _)
      · have hne : ∀ v, x ≠ .leaf v := fun v he => hleaf ⟨v, he⟩
        rw [slotsOfItems_cons hne, List.cons_append]
        generalize hslot : (⟨instances, slotsOfItems xs ++ slots, newSlots, d⟩ : Level) = level
        have hlevel : ∀ n, n ∈ kept ++ heldBySlots (slotsOfItems xs) →
            n ∈ (custody.holding level.held).nodes := by
          intro n hn
          rw [List.mem_append] at hn
          rw [← hslot, Custody.holding, List.mem_append, Level.mem_held_mk, heldBySlots_append,
            List.mem_append]
          rcases hn with hn | hn
          · have hn := hkept hn
            rw [List.mem_append, Level.mem_held_mk] at hn
            tauto
          · tauto
        obtain ⟨x', d₁, hx', hrealize, hrenews, hsame⟩ := @hx p p' hshows.1 hlike.1 hfits.1 hfits'.1
          (custody.holding level.held) [] [] [] d _ _ hhead (List.mem_append_right _ hc)
          (List.Subset.trans hstock (List.subset_append_left ..))
          (fun n hn => List.mem_append_left _ (hlevel n hn)) g
        have hp' : ∀ v, p' ≠ .leaf v := fun v he =>
          hleaf ((shows_leaf_iff hshows.1).2 ((Plan.like_leaf_iff hlike.1).2 ⟨v, he⟩))
        have hne' : ∀ v, x' ≠ .leaf v := ne_leaf_of_shows hx' hp'
        generalize hcustody : (custody.holding level.held).holding x'.held = custody'
        have hnodes : ∀ n, n ∈ x'.held ∨ n ∈ (custody.holding level.held).nodes → n ∈ custody'.nodes := by
          intro n hn
          rw [← hcustody, Custody.holding, List.mem_append]
          exact hn
        have hreleased := hrenews.release custody' g.sound.forest
          (hnodes c (.inr (List.mem_append_right _ hc)))
          (fun n hn => hnodes n (.inr (hlevel n (List.mem_append_left _ (hstock hn))))) fun e he n hn => by
          rcases hhead.held he with he | he
          · exact hnodes n (.inl (entries_held.1 x' e he hn))
          · exact hnodes n (.inr (hlevel n (he hn)))
        have hkept' : kept ++ x'.held ⊆ custody.nodes
            ++ Level.held ⟨instances, slots, ⟨x'.instances, x'.slots, none⟩ :: newSlots, d₁.release custody'⟩ := by
          intro n hn
          rw [List.mem_append] at hn
          rw [List.mem_append, Level.mem_held_mk, heldBySlots, List.mem_append, held_slot]
          rcases hn with hn | hn
          · have hn := hkept hn
            rw [List.mem_append, Level.mem_held_mk] at hn
            tauto
          · tauto
        obtain ⟨xs', d₂, hshows', hrealizeItems, hrenewsItems, hsameAll⟩ := hxs hshows.2 hlike.2 hfits.2
          hfits'.2 (hK.tail x' (List.subset_append_left ..) (List.subset_append_right ..)) hc
          (List.Subset.trans hstock (List.subset_append_left ..)) hkept' hreleased.exposes
        have htake : (Level.mk instances (⟨x.instances, x.slots, none⟩ :: (slotsOfItems xs ++ slots)) newSlots
            d).takeSlot = (⟨x.instances, x.slots, none⟩, level) := by
          rw [← hslot]
          rfl
        have hdocument : level.document = d := by rw [← hslot]
        rw [List.append_nil, List.append_nil, ← hdocument] at hrealize
        refine ⟨x' :: xs', d₂, ⟨hx', hshows'⟩, ?_, hreleased.trans hrenewsItems g.sound.forest,
          .cons hsame hsameAll⟩
        rw [realizeItems_slot hp' htake rfl hrealize ⟨List.append_nil _, rfl⟩, hcustody, ← hslot]
        dsimp only
        rw [hrealizeItems, results, slotsOfItems_cons hne', List.reverse_cons, List.append_assoc]
        rfl

/-- What is nested in the items of a list that fits is nested in the list. -/
theorem Plan.innerAll_le {ps ps' : List Plan} (hfits : (Plan.list ps).Fits) :
    Plan.innerAll ps ps' ≤ (Plan.list ps).inner (.list ps') := by
  cases hflat : (Plan.list ps).isFlat with
  | false =>
    rw [inner, hflat, if_neg Bool.false_ne_true, changes, ← innerAll_add_outerAll]
    exact Nat.le_add_right _ _
  | true =>
    have hleaves : ∀ (vs : List Value) (qs : List Plan), innerAll (vs.map .leaf) qs = 0 := by
      intro vs qs
      induction vs generalizing qs with
      | nil => rfl
      | cons v vs ih =>
        cases qs with
        | nil => rfl
        | cons q qs => rw [List.map_cons, innerAll, ih, inner, isFlat, if_pos rfl]
    cases hfits with
    | list _ huses =>
      cases ps with
      | nil => cases hflat
      | cons p ps =>
        obtain ⟨space, template, compiled, holes, rfl⟩ := huses p (List.mem_cons_self ..)
        cases hflat
    | @texts v rest => exact Nat.le_trans (Nat.le_of_eq (hleaves (v :: rest) ps')) (Nat.zero_le _)

theorem repeats_list (hxs : RepeatsItems c fixed stock xs) : Repeats c fixed stock (.list xs) := by
  intro p p' hx hlike hfits hfits' custody instances slots newSlots d kept K hK hc hstock hkept g
  cases p with
  | leaf | use => exact False.elim hx
  | list ps =>
    cases p' with
    | leaf | use => exact False.elim hlike
    | list ps' =>
      obtain ⟨xs', d', hshows, hrealize, hrenews, hsame⟩ := hxs hx hlike (fits_of_list hfits)
        (fits_of_list hfits') hK.items hc hstock hkept g
      obtain ⟨-, -, -, hpieces, hslots⟩ := blocks_of_sameBlocks hsame
      refine ⟨.list xs', d', hshows, ?_, hrenews.mono (Plan.innerAll_le hfits), hpieces, rfl, hslots⟩
      rw [Plan.realize, Exhibit.instances, List.nil_append, Exhibit.slots, hrealize, result,
        Exhibit.instances, Exhibit.slots]

/-- What is nested in the holes of a use is brought up to date, and then its bindings are. -/
theorem repeats_use {i : Instance} {roots : List Plant} {spots : List Spot}
    (hxs : RepeatsAll c fixed stock xs) : Repeats c fixed stock (.use i roots spots xs) := by
  intro p p' hx hlike hfits hfits' custody instances slots newSlots d kept K hK hc hstock hkept g
  cases p with
  | leaf | list => exact False.elim hx
  | use space template compiled ps =>
    cases p' with
    | leaf | list => exact False.elim hlike
    | use space' template' compiled' ps' =>
      obtain ⟨rfl, rfl, rfl, hlike⟩ := hlike
      obtain ⟨hspace, htemplate, htops, htrees, hnd, hlength, hshown, hall⟩ := hx
      have huse : Exhibit.use i roots spots xs = seated i roots (i.bindings.zip spots) xs :=
        use_eq_seated hlength
      have hbindings : (i.bindings.zip spots).map Prod.fst = i.bindings :=
        List.map_fst_zip (Nat.le_of_eq hlength)
      have hes : ∀ e ∈ i.bindings.zip spots, e.1.held ⊆ i.held := fun e he n hn =>
        List.mem_append_right _ (List.mem_flatMap.2 ⟨e.1, (List.of_mem_zip he).1, hn⟩)
      have hholes : ∀ p ∈ ps, p.Fits := by
        cases hfits with
        | use _ _ _ hfits _ => exact hfits
      have hholes' : ∀ p ∈ ps', p.Fits := by
        cases hfits' with
        | use _ _ _ hfits _ => exact hfits
      rw [huse] at g
      generalize i.bindings.zip spots = es at *
      have hkept₁ : kept ++ i.held ⊆ (custody.holding i.held).nodes
          ++ Level.held ⟨instances, slots, newSlots, d⟩ := by
        intro n hn
        rw [List.mem_append] at hn
        rw [Custody.holding, List.mem_append, List.mem_append]
        rcases hn with hn | hn
        · have hn := hkept hn
          rw [List.mem_append] at hn
          tauto
        · tauto
      obtain ⟨xs', d₁, hxs', hrealize, hrenews, hsame⟩ := hxs hall hlike hholes hholes'
        (hK.holes i roots (List.subset_append_left ..) fun e he =>
          List.Subset.trans (hes e he) (List.subset_append_right ..)) (List.mem_append_right _ hc)
        (List.Subset.trans hstock (List.subset_append_left ..)) hkept₁ g
      obtain ⟨hblocks, hinstances, hslots, -, -⟩ := blocks_of_sameBlocks hsame
      generalize hcustody : (custody.holding ((instancesAll xs').flatMap Instance.held)).holding
        i.block.held = custody'
      generalize hinner : (⟨instances, slots, (slotsAll xs').reverse ++ newSlots, d₁⟩ : Level) = level
      have hsub : ∀ n, n ∈ custody.nodes ++ Level.held ⟨instances, slots, newSlots, d⟩ →
          n ∈ custody'.nodes ++ level.held := by
        intro n hn
        rw [← hcustody, ← hinner, Custody.holding, Custody.holding]
        simp only [List.mem_append, Level.mem_held_mk, heldBySlots_append] at hn ⊢
        tauto
      have hheld : heldAll xs' ⊆ custody'.nodes ++ level.held := by
        intro n hn
        rw [heldAll, List.mem_append] at hn
        rw [← hcustody, ← hinner, Custody.holding, Custody.holding]
        simp only [List.mem_append, Level.mem_held_mk, heldBySlots_append, mem_heldBySlots_reverse]
        tauto
      have hc' : c ∈ custody'.nodes := by
        rw [← hcustody]
        exact List.mem_append_right _ (List.mem_append_right _ hc)
      have hdocument : level.document = d₁ := by rw [← hinner]
      obtain ⟨es', d₂, hfill, hexposes, hsteady, hle, hshown'⟩ := Document.refilled (A := []) (l := []) hK
        level custody' (supersedes_of_shownIn hshown hblocks hxs' hlike hholes hholes') rfl
        (hdocument ▸ hrenews.exposes) hc' hstock (fun n hn => hsub n (hkept hn))
        fun e he => List.Subset.trans (entries_held.2 xs' e he).1 hheld
      rw [List.nil_append, List.nil_append] at hexposes
      rw [hdocument] at hsteady hle
      have hzip : (es'.map Prod.fst).zip (es'.map Prod.snd) = es' := (List.zip_of_prod rfl rfl).symm
      have hisOf := Instance.isOf_of_eq hspace htemplate
      refine ⟨seated i roots es' xs', d₂, ?_, ?_, ?_, rfl, congrArg (i.block :: ·) hinstances, hslots⟩
      · refine ⟨hspace, htemplate, htops, htrees, hnd, by simp, ?_, hxs'⟩
        rw [hzip]
        exact hshown'
      · rw [Plan.realize, Exhibit.instances, Exhibit.slots, List.cons_append, Level.use, Level.take]
        dsimp only
        rw [hrealize]
        dsimp only
        rw [Level.fit, if_pos hisOf]
        dsimp only
        rw [hcustody, hinner, ← hbindings, hfill, ← hinner]
        rfl
      · rw [Plan.inner, if_neg (by exact Bool.false_ne_true), Plan.changes, ← Plan.innerAll_add_outerAll]
        exact hrenews.trans ⟨hexposes, hsteady, hle⟩ g.sound.forest

/-- What is on show is brought up to date. -/
theorem repeats : (∀ x : Exhibit, Repeats c fixed stock x) ∧
    ∀ xs : List Exhibit, RepeatsAll c fixed stock xs ∧ RepeatsItems c fixed stock xs :=
  Exhibit.induct repeats_leaf (fun _ _ _ _ ih => repeats_use ih.1) (fun _ ih => repeats_list ih.2)
    ⟨repeatsAll_nil, repeatsItems_nil⟩
    fun _ _ hx ih => ⟨repeatsAll_cons hx ih.1, repeatsItems_cons hx ih.2⟩

end LiveMarkup
