import LiveMarkup.Proofs.Rendering.Laying
/-!
# Pieces that are exchanged beside others

When pieces in front of a placeholder are exchanged for others (`Document.Lineup.exchange`), there can be more
that stand nowhere yet. These stay as they are (`Document.Lineup.exchange_beside`), and so does every fragment
from which all has been taken, unless its block has been in the row.

The text of a binding takes part in this as a piece of its own. When it is in use no longer it stands nowhere,
and it can be put aside again (`Document.Ready.conceal`).
-/

namespace LiveMarkup

open Exhibit

namespace Document

variable {d d' : Document} {c m n p : NodeId} {root : Option NodeId} {ps front behind : List Plant} {q : Plant}
  {pieces pieces' others new rest kept : List (Block × List Plant)} {entries : List (Binding × Spot)}
  {b : ChildBinding} {fs : List NodeId}

/-- Some pieces are not looked at any more. -/
theorem Ready.drop (g : d.Ready root ps pieces entries) (h : pieces'.Sublist pieces) :
    d.Ready root ps pieces' entries where
  sound := g.sound
  bears := g.bears
  rooted := g.rooted
  top := g.top
  loose x hx := g.loose x (h.subset hx)
  apart := g.apart.sublist h
  aside x hx := g.aside x (h.subset hx)
  supports := g.supports
  separate := g.separate
  hidden a n ha := ⟨(g.hidden a n ha).1, fun x hx => (g.hidden a n ha).2 x (h.subset hx)⟩

/-- A text that stands nowhere is put aside. -/
theorem Ready.conceal {a a' : ChildBinding} {data : String}
    (g : d.Ready (some c) ps pieces ((.child a, .child n [.text a.text data]) :: entries))
    (hplaceholder : a'.placeholder = a.placeholder) (htext : a'.text = a.text) (hc : a.text ≠ c)
    (hparent : d.parent? a.text = none) (hpieces : ∀ y ∈ pieces, ¬ Within y.1.root? y.2 a.text) :
    d.Ready (some c) ps pieces ((.child a', .child n []) :: entries) := by
  obtain ⟨hn, hhas, hkind, -⟩ := g.supports _ (List.mem_cons_self ..)
  have hseparate := List.pairwise_cons.1 g.separate
  exact {
    sound := g.sound
    bears := g.bears
    rooted := g.rooted
    top := g.top
    loose := g.loose
    apart := g.apart
    aside := g.aside
    supports := List.forall_mem_cons.2 ⟨⟨hplaceholder.trans hn, htext ▸ hhas, htext ▸ hkind, fun _ =>
      htext ▸ hparent⟩, fun e he => g.supports e (List.mem_cons_of_mem _ he)⟩
    separate := List.pairwise_cons.2 ⟨fun e he => by
      obtain ⟨b, s⟩ := e
      have hs := hseparate.1 _ he
      cases b with
      | child k =>
        rw [Separate, htext]
        exact hs
      | _ => trivial, hseparate.2⟩
    hidden := fun k m hk => by
      rcases List.mem_cons.1 hk with hk | hk
      · cases hk
        rw [htext]
        refine ⟨fun hw => ?_, hpieces⟩
        rcases hw with hroot | hmem
        · exact hc (Option.some.inj hroot).symm
        · rcases g.bears.parent_of_mem g.sound.forest hmem with ⟨hroot, -⟩ | ⟨p, hp, -⟩
          · cases hroot
          · rw [hparent] at hp
            cases hp
      · exact g.hidden k m (List.mem_cons_of_mem _ hk) }

namespace Lineup

/-- The nodes of a piece in the row are children of the node that the row is in, and others are loose. -/
theorem parent?_of_mem (h : d.Lineup c ps others entries front pieces q behind)
    (hp : d.Bears (some p) (front ++ pieces.flatMap Prod.snd ++ q :: behind)) {y : Block × List Plant}
    (hm : m ∈ y.2.map Plant.id) : (y ∈ pieces → d.parent? m = some p) ∧
      (y ∈ others → d.parent? m = y.1.root?) := by
  refine ⟨fun hy => h.forest.parent_of_mem ?_, fun hy => (h.ready.loose y hy).parent? h.forest hm⟩
  rw [hp.row p rfl, List.map_append, List.map_append, List.map_flatMap]
  exact List.mem_append_left _ (List.mem_append_right _ (List.mem_flatMap.2 ⟨y, hy, hm⟩))

section Shifted

variable (h : d.Lineup c ps others entries front pieces q behind)
  (hp : d.Bears (some p) (front ++ pieces.flatMap Prod.snd ++ q :: behind))
  (hmoved : Moved d d' ((pieces ++ others).flatMap fun y => y.2.map Plant.id))
  (hshifts : d.Shifts d' (p :: (pieces ++ others).flatMap fun y => y.1.fragments))

include h hp hmoved hshifts

/-- Fragments that are empty stay so, unless their blocks have been in the row. -/
theorem vacated (hv : d.Vacated fs) (hfs : ∀ y ∈ pieces, ∀ f ∈ y.1.fragments, f ∉ fs) : d'.Vacated fs := by
  refine hv.shifts hshifts h.forest hmoved.forest fun f hf hmem => ?_
  have hempty := (hv.empty f hf).2.2
  rcases List.mem_cons.1 hmem with rfl | hmem
  · rw [hp.row f rfl] at hempty
    simp at hempty
  · obtain ⟨y, hy, hfy⟩ := List.mem_flatMap.1 hmem
    rcases List.mem_append.1 hy with hy | hy
    · exact hfs y hy f hfy hf
    · exact h.ne_nil hy (mem_root_iff.1 hfy) hempty

end Shifted

/-- Pieces that take no part are not looked at. -/
theorem part (h : d.Lineup c ps (others ++ kept) entries front pieces q behind) :
    d.Lineup c ps others entries front pieces q behind where
  ready := h.ready.drop (List.sublist_append_left ..)
  row := h.row
  spans y hy := h.spans y ((List.mem_append.1 hy).elim (List.mem_append_left _) fun hy =>
    List.mem_append_right _ (List.mem_append_left _ hy))
  emptied := h.emptied
  nodup := h.nodup

/-- Pieces that take no part are left alone. -/
theorem loose_beside (h : d.Lineup c ps (others ++ kept) entries front pieces q behind)
    (hp : d.Bears (some p) (front ++ pieces.flatMap Prod.snd ++ q :: behind)) (hw : Within (some c) ps p)
    (hmoved : Moved d d' ((pieces ++ others).flatMap fun y => y.2.map Plant.id))
    (hshifts : d.Shifts d' (p :: (pieces ++ others).flatMap fun y => y.1.fragments)) :
    ∀ y ∈ kept, d'.Loose y.1 y.2 := by
  intro y hy
  have hall := h.apart
  rw [← List.append_assoc] at hall
  have hapart : ∀ m, Within y.1.root? y.2 m → ∀ x ∈ pieces ++ others, ¬ Within x.1.root? x.2 m :=
    fun m hm x hx hmx => (List.pairwise_append.1 hall).2.2 x hx y hy m hmx hm
  have houtside := h.outside hp hw y (List.mem_append_right _ (List.mem_append_right _ hy))
  have hunmoved : ∀ m, Within y.1.root? y.2 m → m ∉ (pieces ++ others).flatMap fun y => y.2.map Plant.id := by
    intro m hm hmem
    obtain ⟨x, hx, hmx⟩ := List.mem_flatMap.1 hmem
    exact hapart m hm x hx (.inr (mem_idsAll_of_mem_map hmx))
  refine (h.ready.loose y (List.mem_append_right _ hy)).congr (fun m hm => ?_) fun k hk hnone => ?_
  · refine hmoved.relinked.unchanged (hshifts.children_eq hmoved h.forest (fun k hk a ha => ?_) fun hmem => ?_)
    · obtain ⟨x, hx, hk⟩ := List.mem_flatMap.1 hk
      rcases List.mem_append.1 hx with hx' | hx'
      · rw [(h.part.parent?_of_mem hp hk).1 hx'] at ha
        exact Option.some.inj ha ▸ List.mem_cons_self ..
      · rw [(h.part.parent?_of_mem hp hk).2 hx'] at ha
        exact List.mem_cons_of_mem _ (List.mem_flatMap.2 ⟨x, hx, mem_root_iff.2 ha⟩)
    · rcases List.mem_cons.1 hmem with rfl | hmem
      · exact houtside hm
      · obtain ⟨x, hx, hmx⟩ := List.mem_flatMap.1 hmem
        exact hapart m hm x hx (.inl (mem_root_iff.1 hmx))
  · rw [hmoved.parent? h.forest (hunmoved k (.inr ?_)), hnone]
    have hids := ((h.ready.loose y (List.mem_append_right _ hy)).single k hk).1
    refine mem_idsAll_of_mem_map ?_
    rw [hids]
    exact List.mem_singleton_self k

/-- What is taken out of the row without a fragment has no parent then. -/
theorem parent?_of_rest (h : d.Lineup c ps others entries front pieces q behind)
    (hp : d.Bears (some p) (front ++ pieces.flatMap Prod.snd ++ q :: behind)) (hw : Within (some c) ps p)
    (hmoved : Moved d d' ((pieces ++ others).flatMap fun y => y.2.map Plant.id))
    (hshifts : d.Shifts d' (p :: (pieces ++ others).flatMap fun y => y.1.fragments))
    (hperm : (pieces ++ others).Perm (new ++ rest))
    (hrow : d'.children p = front.map Plant.id ++ new.flatMap (fun y => y.2.map Plant.id)
      ++ q.id :: behind.map Plant.id)
    (hempty : ∀ y ∈ new, ∀ f ∈ y.1.fragments, d'.children f = []) (hrest : ∀ y ∈ rest, y.1.fragments = [])
    {y : Block × List Plant} (hy : y ∈ rest) (hm : m ∈ y.2.map Plant.id) : d'.parent? m = none := by
  have hymem : y ∈ pieces ++ others := hperm.mem_iff.2 (List.mem_append_right _ hy)
  have hroot : y.1.root? = none := Option.eq_none_iff_forall_ne_some.2 fun f hf => by
    have hmem := mem_root_iff.2 hf
    rw [hrest y hy] at hmem
    cases hmem
  -- it is in the row no longer
  have hgone : m ∉ d'.children p := by
    intro hmem
    have hapart := (List.pairwise_append.1 ((hperm.pairwise_iff fun h m hm hm' => h m hm' hm).1 h.apart)).2.2
    rw [hrow, List.mem_append, List.mem_append] at hmem
    have hmw : Within y.1.root? y.2 m := .inr (mem_idsAll_of_mem_map hm)
    have hframe : m ∈ front.map Plant.id ∨ m ∈ q.id :: behind.map Plant.id → False := by
      intro hframe
      rcases List.mem_append.1 hymem with hy' | hy'
      · have hnd := h.forest.nodup p
        rw [hp.row p rfl, List.map_append, List.map_append, List.map_flatMap, List.map_cons,
          List.nodup_append, List.nodup_append] at hnd
        have hmid : m ∈ pieces.flatMap fun y => y.2.map Plant.id := List.mem_flatMap.2 ⟨y, hy', hm⟩
        rcases hframe with hf | hf
        · exact hnd.1.2.2 m hf m hmid rfl
        · exact hnd.2.2 m (List.mem_append_right _ hmid) m hf rfl
      · refine h.ready.aside y hy' m hmw (.inr (h.row.ids_subset (mem_idsAll_of_mem_map ?_)))
        rw [List.map_append, List.map_append, List.map_cons]
        rcases hframe with hf | hf
        · exact List.mem_append_left _ (List.mem_append_left _ hf)
        · exact List.mem_append_right _ hf
    rcases hmem with (hmem | hmem) | hmem
    · exact hframe (.inl hmem)
    · obtain ⟨x, hx, hmx⟩ := List.mem_flatMap.1 hmem
      exact hapart x hx y hy m (.inr (mem_idsAll_of_mem_map hmx)) hmw
    · exact hframe (.inr hmem)
  refine Option.eq_none_iff_forall_ne_some.2 fun a ha => ?_
  have hchild := hmoved.forest.mem_of_parent ha
  have hap : a ≠ p := fun he => hgone (he ▸ hchild)
  rcases hshifts.parent? m with hsame | hnone | ⟨a', ha', hto⟩
  · rw [ha] at hsame
    rcases List.mem_append.1 hymem with hy' | hy'
    · rw [(h.parent?_of_mem hp hm).1 hy'] at hsame
      exact hap (Option.some.inj hsame)
    · rw [(h.parent?_of_mem hp hm).2 hy', hroot] at hsame
      cases hsame
  · rw [hnone] at ha
    cases ha
  · obtain rfl : a' = a := Option.some.inj (hto.symm.trans ha)
    rcases List.mem_cons.1 ha' with rfl | ha'
    · exact hap rfl
    · obtain ⟨x, hx, hfx⟩ := List.mem_flatMap.1 ha'
      rcases List.mem_append.1 (hperm.mem_iff.1 hx) with hx | hx
      · rw [hempty x hx a' hfx] at hchild
        cases hchild
      · rw [hrest x hx] at hfx
        cases hfx

/-- Pieces in front of a placeholder are exchanged for others, while more of them stand nowhere and stay so. -/
theorem exchange_beside (h : d.Lineup c ps (others ++ kept) entries front pieces q behind)
    (hplaceholder : b.placeholder = q.id) (hentries : b.entries = pieces.map Prod.fst)
    (hperm : (pieces ++ others).Perm (new ++ rest))
    (horder : common (pieces.map Prod.fst) (new.map Prod.fst)
      = common (new.map Prod.fst) (pieces.map Prod.fst)) :
    ∃ d', b.showBlocks d (new.map Prod.fst) = ({ b with entries := new.map Prod.fst }, d') ∧ d.Grows d' ∧
      d'.Ready (some c) (Plant.graftAll (Plant.exchange q.id (pieces.flatMap fun y => y.2.map Plant.id)
        (new.flatMap Prod.snd)) ps) kept entries ∧
      (∀ fs, d.Vacated ((pieces.flatMap fun y => y.1.fragments) ++ fs) →
        d'.Vacated ((new.flatMap fun y => y.1.fragments) ++ fs)) ∧
      ((∀ y ∈ rest, y.1.fragments = []) → ∀ y ∈ rest, ∀ m ∈ y.2.map Plant.id, d'.parent? m = none) := by
  obtain ⟨p, hp, hparent, hw⟩ := h.exists_parent
  obtain ⟨d', hshown, hgrown, hready, hfragments, hnd⟩ := h.part.exchange hplaceholder hentries hperm horder
  obtain ⟨d'', hshown', hmoved, hshifts, hrow, hempty, -⟩ :=
    h.part.reconcile hp hw hplaceholder hentries hperm horder
  obtain rfl : d'' = d' := congrArg Prod.snd (hshown'.symm.trans hshown)
  have hnew : ∀ y ∈ new, y ∈ pieces ++ others := fun y hy => hperm.mem_iff.2 (List.mem_append_left _ hy)
  have hkept : ∀ y ∈ kept, y ∈ others ++ kept := fun y hy => List.mem_append_right _ hy
  have hall := h.apart
  rw [← List.append_assoc] at hall
  refine ⟨d'', hshown, hgrown, ?_, fun fs hv => ?_, fun hrest y hy m hm =>
    h.part.parent?_of_rest hp hw hmoved hshifts hperm hrow hempty hrest hy hm⟩
  · exact {
      sound := hready.sound
      bears := hready.bears
      rooted := hready.rooted
      top := hready.top
      loose := h.loose_beside hp hw hmoved hshifts
      apart := (List.pairwise_append.1 h.ready.apart).2.1
      aside := fun y hy m hm hwithin => by
        rcases hwithin with hroot | hm'
        · exact h.ready.aside y (hkept y hy) m hm (.inl hroot)
        · rcases Plant.mem_idsAll_exchange hm' with hm' | hm'
          · exact h.ready.aside y (hkept y hy) m hm (.inr hm')
          · rw [idsAll_flatMap] at hm'
            obtain ⟨x, hx, hmx⟩ := List.mem_flatMap.1 hm'
            exact (List.pairwise_append.1 hall).2.2 x (hnew x hx) y hy m (.inr hmx) hm
      supports := hready.supports
      separate := hready.separate
      hidden := fun a n ha => ⟨(hready.hidden a n ha).1, fun x hx => (h.ready.hidden a n ha).2 x (hkept x hx)⟩ }
  · obtain ⟨-, hfs, hapart⟩ := List.nodup_append.1 hv.nodup
    have hout : ∀ y ∈ pieces, ∀ f ∈ y.1.fragments, f ∉ fs := fun y hy f hf hmem =>
      hapart f (List.mem_flatMap.2 ⟨y, hy, hf⟩) f hmem rfl
    have hkeeps := h.part.vacated hp hmoved hshifts
      ⟨hfs, fun f hf => hv.empty f (List.mem_append_right _ hf)⟩ hout
    refine ⟨List.nodup_append.2 ⟨hnd, hfs, fun f hf f' hf' he => ?_⟩, fun f hf => ?_⟩
    · subst he
      obtain ⟨y, hy, hfy⟩ := List.mem_flatMap.1 hf
      rcases List.mem_append.1 (hnew y hy) with hy | hy
      · exact hout y hy f hfy hf'
      · exact h.part.ne_nil hy (mem_root_iff.1 hfy) (hv.empty f (List.mem_append_right _ hf')).2.2
    · rcases List.mem_append.1 hf with hf | hf
      · obtain ⟨y, hy, hfy⟩ := List.mem_flatMap.1 hf
        exact hfragments y hy f hfy
      · exact hkeeps.empty f hf

end Lineup

end Document

end LiveMarkup
