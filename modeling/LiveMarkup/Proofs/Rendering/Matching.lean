import LiveMarkup.Proofs.Rendering.Pruning
import LiveMarkup.Proofs.Rendering.Whereabouts
/-!
# How the next plan meets what has been shown

If the roll of the next plan agrees with that of the plan that is shown, then whatever is found again for it is in its
place, and the rest of what is shown can be given up: the next plan meets what is left (`Exhibit.exists_meets`).
-/

namespace LiveMarkup

open Exhibit

/-! ### Meeting what has been shown -/

section Met

variable {is : List Instance} {cs : List Cache} {root : Option Block} {posts : List (Form × Place)} {rolls : List Roll}
  {q p : Plan} {y : Exhibit} {qs ps : List Plan} {ys : List Exhibit} {place : Place}
  {position slot position' slot' : Nat} {K : Exhibit → Exhibit} {kept : List NodeId} {d : Document} {c : NodeId}

/-- What is not found again is given up. -/
theorem exists_meets_of_misses (hy : y.Shows q) (hq : q.Fits) (hheaded : q.AllHeaded) (hK : Framing kept K)
    (g : d.Carries c [] (K y)) (hp : p.Fits) (hheaded' : p.AllHeaded) (hmisses : Misses is p.forms)
    (hslots : SlotsMiss cs p.decks) : ∃ x, Pruned x y ∧ x.Meets is cs p := by
  have hnd := g.nodup_ids hK
  obtain ⟨hpruned, hentries⟩ := pruned_bare hy hq hnd
  refine ⟨y.bare, hpruned, .anew hentries ?_ hp hheaded' hmisses hslots⟩
  rw [hpruned.pieces]
  exact spans_of_shows hy hq hheaded hnd

theorem exists_meets_of_unmet (hy : y.Shows q) (hq : q.Fits) (hheaded : q.AllHeaded) (hK : Framing kept K)
    (g : d.Carries c [] (K y)) (h : Cache.Answers ⟨is, cs, root⟩ ⟨posts, rolls⟩) (hp : p.Fits)
    (hheaded' : p.AllHeaded) (hunmet : p.Unmet place position' slot' posts rolls)
    (hposts : PostsAgree (posts.drop position') (p.posts place position'))
    (hrolls : RollsAgree (rolls.drop slot') (p.rolls place position')) :
    ∃ x, Pruned x y ∧ x.Meets (is.drop position') (cs.drop slot') p := by
  obtain ⟨hmisses, hslots⟩ := Plan.unmet.1 p hp h hunmet hposts hrolls
  exact exists_meets_of_misses hy hq hheaded hK g hp hheaded' hmisses hslots

end Met

theorem held_subset_flatMap {es : List (Binding × Spot)} (kept : List NodeId) {e : Binding × Spot} (he : e ∈ es) :
    e.1.held ⊆ kept ++ es.flatMap fun e => e.1.held :=
  fun _ hn => List.mem_append_right _ (List.mem_flatMap.2 ⟨e, he, hn⟩)

/-- Wherever a plan is shown, the next plan meets what is shown of it. -/
def Plan.IsMet (q : Plan) : Prop :=
  ∀ (position' slot' : Nat) {is cs root posts rolls y place position slot} {K : Exhibit → Exhibit} {kept d c}
    {p : Plan}, y.Shows q → q.Fits → q.AllHeaded → Framing kept K → Document.Carries d c [] (K y) →
    Cache.Answers ⟨is, cs, root⟩ ⟨posts, rolls⟩ → Stands is cs posts rolls q y place position slot →
    p.Fits → p.AllHeaded → PostsAgree (posts.drop position') (p.posts place position') →
    RollsAgree (rolls.drop slot') (p.rolls place position') →
    ∃ x, Pruned x y ∧ x.Meets (is.drop position') (cs.drop slot') p

/-- Wherever plans are shown in the holes of an instance, the next plans for the holes meet what is shown of them. -/
def HolesMet (qs : List Plan) : Prop :=
  ∀ {is cs root posts rolls ys owner form number position slot} {L : List Exhibit → Exhibit} {kept d c}
    {roots : List Plant} {holes : List Hole} {es : List (Binding × Spot)} {ps : List Plan} {position' slot'},
    ShownIn roots holes es ys qs → ShowsAll ys qs → (∀ q ∈ qs, q.Fits) → PlansHeaded qs → FramingAll kept L →
    Document.Carries d c [] (L ys) → Cache.Answers ⟨is, cs, root⟩ ⟨posts, rolls⟩ →
    StandsAll is cs posts rolls qs ys owner form number position slot → (∀ p ∈ ps, p.Fits) → PlansHeaded ps →
    holes.length = ps.length → (∀ h ∈ holes.zip ps, h.1.kind ≠ .child → ∃ v, h.2 = .leaf v) →
    PostsAgree (posts.drop position') (postsAll owner form number position' ps) →
    RollsAgree (rolls.drop slot') (rollsAll owner form number position' ps) →
    ∃ xs, List.Forall₂ Pruned xs ys ∧ MeetsAll roots holes es (is.drop position') (cs.drop slot') xs ps

/-- Wherever a list is shown, the items of the next list meet what is shown of its items. -/
def ItemsMet (qs : List Plan) : Prop :=
  ∀ {posts cs rs ys place number} {L : List Exhibit → Exhibit} {kept d c} {ps : List Plan},
    ShowsAll ys qs → (∀ q ∈ qs, q.Fits) → PlansHeaded qs →
    (∀ q ∈ qs, ∃ space template compiled holes, q = .use space template compiled holes) →
    ProperAll ys → FramingAll kept L → Document.Carries d c [] (L ys) → SlotsAnswer posts cs rs →
    slotsOfItems ys <+: cs → rollsOfItems place number qs <+: rs →
    (∀ k r, qs.length ≤ k → rs[k]? = some r → Roll.place? r ≠ some (.item place (number + k))) →
    (∀ p ∈ ps, p.Fits) → PlansHeaded ps →
    (∀ p ∈ ps, ∃ space template compiled holes, p = .use space template compiled holes) →
    RollsAgree rs (rollsOfItems place number ps) → ∃ xs, List.Forall₂ Pruned xs ys ∧ MeetsItems cs xs ps

section Recursion

variable {qs : List Plan}

theorem isMet_leaf (v : Value) : Plan.IsMet (.leaf v) := by
  intro position' slot' is cs root posts rolls y place position slot K kept d c p hy hq hheaded hK g h hstands hp
    hheaded' hposts hrolls
  rcases hstands.unmet_or position' slot' hposts with hunmet | ⟨_, _, _, _, _, _, he, -⟩ | ⟨_, _, he, -⟩
  · exact exists_meets_of_unmet hy hq hheaded hK g h hp hheaded' hunmet hposts hrolls
  · cases he
  · cases he

/-- An instance that is found again is met, with what is nested in it. -/
theorem isMet_use {space : Markup.Namespace} {template : Template} {compiled : Compiled} (hqs : HolesMet qs) :
    Plan.IsMet (.use space template compiled qs) := by
  intro position' slot' is cs root posts rolls y place position slot K kept d c p hy hq hheaded hK g h hstands hp
    hheaded' hposts hrolls
  rcases hstands.unmet_or position' slot' hposts with hunmet | ⟨_, _, _, compiled', _, ps, he, rfl, rfl⟩ | ⟨_, _, he, -⟩
  · exact exists_meets_of_unmet hy hq hheaded hK g h hp hheaded' hunmet hposts hrolls
  · cases he
    obtain rfl : compiled' = compiled := hheaded'.1.trans hheaded.1.symm
    cases y with
    | leaf | list => exact False.elim hy
    | use i roots spots ys =>
      have hproper := proper_of_shows.1 _ _ hy hq
      obtain ⟨hspace, htemplate, htops, htrees, hnodup, hlength, hshown, hall⟩ := hy
      rw [use_eq_seated hlength] at g hstands hproper ⊢
      generalize i.bindings.zip spots = es at *
      have hfits : ∀ q ∈ qs, q.Fits := by
        cases hq with
        | use _ _ _ hfits => exact hfits
      obtain ⟨rest, hrest⟩ := hstands.instances
      have hdrop : is.drop position' = { i with bindings := es.map Prod.fst } :: is.drop (position' + 1) := by
        rw [← List.drop_drop, ← hrest]
        rfl
      rw [Plan.posts, ← List.singleton_append, postsAgree_append, List.length_singleton, List.drop_drop] at hposts
      obtain ⟨hcount, hfits', hleaves⟩ : compiled'.holes.length = ps.length ∧ (∀ p ∈ ps, p.Fits) ∧
          ∀ h ∈ compiled'.holes.zip ps, h.1.kind ≠ .child → ∃ v, h.2 = .leaf v := by
        cases hp with
        | use _ _ hcount hfits hleaves => exact ⟨hcount, hfits, hleaves⟩
      obtain ⟨xs, hpruned, hmeets⟩ := hqs hshown hall hfits hheaded.2.2
        (hK.holes i roots (List.subset_append_left ..) fun e he => held_subset_flatMap kept he) g h hstands.holes
        hfits' hheaded'.2.2 hcount hleaves hposts.2 hrolls
      refine ⟨seated i roots es xs, .seated hpruned hproper, ?_⟩
      rw [hdrop]
      exact .again hspace htemplate htops htrees hnodup hp hheaded'.2.1 hmeets
  · cases he

theorem length_decksOfItems_le (ps : List Plan) : (decksOfItems ps).length ≤ ps.length := by
  induction ps with
  | nil => exact Nat.le_refl _
  | cons p ps ih =>
    cases p with
    | leaf => exact Nat.le_succ_of_le ih
    | use | list => exact Nat.succ_le_succ ih

theorem isMet_list {items : List Plan} (hitems : ItemsMet items) : Plan.IsMet (.list items) := by
  intro position' slot' is cs root posts rolls y place position slot K kept d c p hy hq hheaded hK g h hstands hp
    hheaded' hposts hrolls
  rcases hstands.unmet_or position' slot' hposts with hunmet | ⟨_, _, _, _, _, _, he, -⟩ | ⟨qs, ps, he, rfl, rfl, hne⟩
  · exact exists_meets_of_unmet hy hq hheaded hK g h hp hheaded' hunmet hposts hrolls
  · cases he
  · cases he
    cases y with
    | leaf | use => exact False.elim hy
    | list ys =>
      have hproper : ProperAll ys := proper_of_shows.1 _ _ hy hq
      cases hq with
      | texts => exact absurd (decksOfItems_leaves _) hne
      | list hfits huses =>
        cases hp with
        | @texts v rest =>
          refine exists_meets_of_misses hy (.list hfits huses) hheaded hK g (.texts ‹_› ‹_›) hheaded' ?_ ?_
          · cases is.drop position' <;> trivial
          · rw [Plan.decks, decksOfItems_leaves]
            cases cs.drop slot' <;> trivial
        | list hfits' huses' =>
          have hprefix : rollsOfItems place 0 items <+: rolls.drop slot' := by
            obtain ⟨before, behind, before', behind', -, -, hrolls, hlength, -⟩ := hstands.outer
            exact ⟨behind', by rw [hrolls, List.append_assoc, ← hlength, List.drop_left]; rfl⟩
          obtain ⟨xs, hpruned, hmeets⟩ := hitems hy hfits hheaded huses hproper hK.items g
            (slotsAnswer_drop h.2.2 slot') hstands.slots hprefix (fun k r hk hr hplace => by
              rw [List.getElem?_drop] at hr
              rw [Nat.zero_add] at hplace
              obtain ⟨_, he, -, hlt⟩ := hstands.eq_of_roll hr hplace
              cases he
              have := length_decksOfItems_le items
              omega) hfits' hheaded' huses' hrolls
          exact ⟨.list xs, .list hpruned, .list hmeets⟩

theorem holesMet_nil : HolesMet [] := by
  intro is cs root posts rolls ys owner form number position slot L kept d c roots holes es ps position' slot' hshown _
    _ _ _ _ _ _ _ _ hcount _ _ _
  cases hshown
  obtain rfl := List.eq_nil_of_length_eq_zero hcount.symm
  exact ⟨[], .nil, .nil⟩

theorem holesMet_cons (hq : q.IsMet) (hqs : HolesMet qs) : HolesMet (q :: qs) := by
  intro is cs root posts rolls ys owner form number position slot L kept d c roots holes es ps position' slot' hshown
    hall hfits hheaded hL g h hstands hfits' hheaded' hcount hleaves hposts hrolls
  cases hshown with
  | @cons hole e y _ holes es ys _ hat hs hleaf hshown =>
    cases ps with
    | nil => cases hcount
    | cons p ps =>
      obtain ⟨hqfits, hqsfits⟩ := List.forall_mem_cons.1 hfits
      obtain ⟨hpfits, hpsfits⟩ := List.forall_mem_cons.1 hfits'
      obtain ⟨hpleaf, hpsleaves⟩ := List.forall_mem_cons.1 hleaves
      rw [postsAll, postsAgree_append, length_posts, List.drop_drop] at hposts
      rw [rollsAll, rollsAgree_append, length_rolls.1, List.drop_drop] at hrolls
      obtain ⟨x, hpruned, hmeets⟩ := hq position' slot' hall.1 hqfits hheaded.1
        (hL.head ys (List.subset_append_left ..) fun e he => held_subset_flatMap kept he) g h hstands.head hpfits
        hheaded'.1 hposts.1 hrolls.1
      obtain ⟨xs, hpruneds, hmeetsAll⟩ := hqs hshown hall.2 hqsfits hheaded.2
        (hL.tail y (List.subset_append_left ..) fun e he => held_subset_flatMap kept he) g h (hstands.tail hall.1)
        hpsfits hheaded'.2 (Nat.succ.inj hcount) hpsleaves hposts.2 hrolls.2
      refine ⟨x :: xs, .cons hpruned hpruneds, .cons hat ?_ (fun hprimitive => ?_) hqfits (fun hne => ?_) hmeets ?_⟩
      · rwa [blocks, hpruned.pieces]
      · obtain ⟨v, hv⟩ := Option.isSome_iff_exists.1 hprimitive
        rw [hpruned.pieces]
        exact pieces_of_primitive hall.1 hqfits hv
      · obtain ⟨v, rfl⟩ := hleaf hne
        obtain ⟨w, rfl⟩ := hpleaf hne
        exact ⟨v, w, rfl, rfl, hpruned.leaf v (eq_leaf_of_shows hall.1)⟩
      · rw [List.drop_drop, List.drop_drop]
        exact hmeetsAll

theorem itemsMet_nil : ItemsMet [] := by
  intro posts cs rs ys place number L kept d c ps hall _ _ _ _ _ _ h _ _ hout hfits hheaded huses hrolls
  cases ys with
  | nil =>
    exact ⟨[], .nil, .more hfits hheaded huses
      ((Plan.unmet.2 ps hfits).2 huses h (fun k r hr => hout k r (Nat.zero_le k) hr) hrolls)⟩
  | cons => exact False.elim hall

/-- The items of a list are met one by one, each on a level of its own. -/
theorem itemsMet_cons (hq : q.IsMet) (hqs : ItemsMet qs) : ItemsMet (q :: qs) := by
  intro posts cs rs ys place number L kept d c ps hall hfits hheaded huses hproper hL g h hslots hprefix hout hfits'
    hheaded' huses' hrolls
  cases ps with
  | nil =>
    have hnd : ∀ z ∈ ys, (Plant.idsAll z.plants).Nodup := by
      intro z hz
      obtain ⟨l, r, rfl⟩ := List.append_of_mem hz
      exact g.nodup_ids (hL.part l r _ (List.subset_append_left ..) fun e he => held_subset_flatMap kept he)
    obtain ⟨hpruned, hentries⟩ := pruned_items hall (fun p hp items he => by
      obtain ⟨_, _, _, _, rfl⟩ := huses p hp
      cases he) hproper hnd
    refine ⟨ys.map idle, hpruned, .rest hentries ?_⟩
    rw [(prunedAll_parts hpruned).2.1, piecesAll_eq]
    intro piece hpiece
    obtain ⟨z, hz, hpiece⟩ := List.mem_flatMap.1 hpiece
    obtain ⟨p, hp, hzp⟩ := exists_shows hall hz
    exact spans_of_shows hzp (hfits p hp) (plansHeaded_iff.1 hheaded p hp) (hnd z hz) piece hpiece
  | cons p ps =>
    obtain ⟨space, template, compiled, holes, rfl⟩ := huses' p (List.mem_cons_self ..)
    obtain ⟨space', template', compiled', holes', rfl⟩ := huses q (List.mem_cons_self ..)
    cases ys with
    | nil => exact False.elim hall
    | cons y ys =>
      obtain ⟨hqfits, hqsfits⟩ := List.forall_mem_cons.1 hfits
      obtain ⟨hpfits, hpsfits⟩ := List.forall_mem_cons.1 hfits'
      rw [slotsOfItems_cons fun v he => by subst he; exact hall.1] at hslots
      obtain ⟨cs, rfl⟩ := hslots
      obtain ⟨rs, rfl⟩ := hprefix
      obtain ⟨hroot, hanswers, -, hrest⟩ := h
      obtain ⟨⟨hposts, hrolls⟩, hagree⟩ := hrolls
      obtain ⟨x, hpruned, hmeets⟩ := hq 0 0 hall.1 hqfits hheaded.1
        (hL.head ys (List.subset_append_left ..) fun e he => held_subset_flatMap kept he) g hanswers
        (stands_self rfl) hpfits hheaded'.1 hposts hrolls
      obtain ⟨xs, hpruneds, hmeetsItems⟩ := hqs hall.2 hqsfits hheaded.2
        (fun q hq => huses q (List.mem_cons_of_mem _ hq)) hproper.2
        (hL.tail y (List.subset_append_left ..) fun e he => held_subset_flatMap kept he) g hrest
        (List.prefix_append ..) (List.prefix_append ..) (fun k r hk hr => by
          rw [Nat.add_assoc, Nat.add_comm 1 k]
          exact hout (k + 1) r (Nat.succ_le_succ hk) hr) hpsfits hheaded'.2
        (fun p hp => huses' p (List.mem_cons_of_mem _ hp)) hagree
      exact ⟨x :: xs, .cons hpruned hpruneds, .cons hroot hmeets hmeetsItems⟩

end Recursion

/-- Wherever a plan is shown, the next plan meets what is shown of it if their rolls agree. -/
theorem Plan.isMet : (∀ q : Plan, q.IsMet) ∧ ∀ qs : List Plan, HolesMet qs ∧ ItemsMet qs :=
  Plan.induct isMet_leaf (fun _ _ _ _ ih => isMet_use ih.1) (fun _ ih => isMet_list ih.2)
    ⟨holesMet_nil, itemsMet_nil⟩ fun _ _ ihp ihps => ⟨holesMet_cons ihp ihps.1, itemsMet_cons ihp ihps.2⟩

/-- If the roll of the next plan agrees with that of the plan that is shown, what is found again for it has its place,
and all else can be given up. -/
theorem Exhibit.exists_meets {d : Document} {c : NodeId} {y : Exhibit} {q p : Plan} (g : d.Carries c [] y)
    (hy : y.Shows q) (hq : q.Fits) (hheaded : q.AllHeaded) (hp : p.Fits) (hheaded' : p.AllHeaded)
    (hagrees : q.roll.Agrees p.roll) : ∃ x, Pruned x y ∧ x.Meets y.instances y.slots p :=
  Plan.isMet.1 q 0 0 hy hq hheaded (.self []) g (answers_of_shows hy none) (stands_self rfl) hp hheaded' hagrees.1
    hagrees.2

end LiveMarkup
