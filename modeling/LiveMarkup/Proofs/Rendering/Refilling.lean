import LiveMarkup.Proofs.Rendering.Instantiation
import LiveMarkup.Proofs.Rendering.Rebinding
/-!
# Filling an instance again

The bindings of an instance that has been on show are brought up to date one after another with values of
the same shape as before. Each of them is `Document.Exposes.update`; in between all that is not held is let
go of, which is nothing that is on show. At most two changes are counted for each value that is not the
same (`Document.refilled`).
-/

namespace LiveMarkup

open Exhibit

variable {roots : List Plant} {h : Hole} {e : Binding × Spot} {x : Exhibit} {p p' : Plan}
  {holes : List Hole} {es : List (Binding × Spot)} {xs : List Exhibit} {ps ps' : List Plan}

/-- Some holes that show some plans, and are to show others of the same shape of which exhibits are
there. -/
inductive Supersedes (roots : List Plant) :
    List Hole → List (Binding × Spot) → List Exhibit → List Plan → List Plan → Prop where
  | nil : Supersedes roots [] [] [] [] []
  | cons {h : Hole} {e : Binding × Spot} {x : Exhibit} {p p' : Plan} {holes : List Hole}
      {es : List (Binding × Spot)} {xs : List Exhibit} {ps ps' : List Plan} (at_ : h.At roots e)
      (shown : Shown e x.blocks p) (shows_ : x.Shows p') (like : p.Like p') (fits : p.Fits)
      (fits' : p'.Fits) (leaf : h.kind ≠ .child → ∃ v, p = .leaf v)
      (rest : Supersedes roots holes es xs ps ps') :
      Supersedes roots (h :: holes) (e :: es) (x :: xs) (p :: ps) (p' :: ps')

/-- What is shown in some holes is to be renewed, if the blocks of what is nested are the same as
before. -/
theorem supersedes_of_shownIn {xs' : List Exhibit} (h : ShownIn roots holes es xs ps)
    (hblocks : xs'.map blocks = xs.map blocks) (hshows : ShowsAll xs' ps') (hlike : Plan.LikeAll ps ps')
    (hfits : ∀ p ∈ ps, p.Fits) (hfits' : ∀ p ∈ ps', p.Fits) : Supersedes roots holes es xs' ps ps' := by
  induction h generalizing xs' ps' with
  | nil =>
    obtain rfl := List.map_eq_nil_iff.1 hblocks
    cases ps' with
    | nil => exact .nil
    | cons => exact False.elim hlike
  | cons at_ shown leaf _ ih =>
    cases xs' with
    | nil => cases hblocks
    | cons x' xs' =>
      cases ps' with
      | nil => exact False.elim hlike
      | cons p' ps' =>
        obtain ⟨hblock, hblocks⟩ := List.cons.inj hblocks
        exact .cons at_ (hblock ▸ shown) hshows.1 hlike.1 (hfits _ (List.mem_cons_self ..))
          (hfits' _ (List.mem_cons_self ..)) leaf (ih hblocks hshows.2 hlike.2
          (fun p hp => hfits p (List.mem_cons_of_mem _ hp))
          fun p hp => hfits' p (List.mem_cons_of_mem _ hp))

namespace Document

variable {d : Document} {c : NodeId} {fixed kept : List NodeId} {K : Exhibit → Exhibit} {i : Instance}
  {A : List (Binding × Spot)} {l : List Exhibit} {custody : Custody} {stock : Stock}

/-- What is exposed stays so when all that is not held is let go of. -/
theorem Exposes.release (g : d.Exposes c fixed stock x) (hc : c ∈ custody.nodes)
    (hstock : stock.held ⊆ custody.nodes) (hheld : ∀ e ∈ x.entries, e.1.held ⊆ custody.nodes) :
    (d.release custody).Exposes c fixed stock x ∧ d.Steady (d.release custody) c fixed := by
  obtain ⟨ps, hready, halike⟩ := g.ready
  obtain ⟨⟨hpieces, hentries⟩, -⟩ := stock.held_subset.1 hstock
  have hkeeps := keeps_release (d := d) (List.Subset.refl custody.nodes)
  have hgentle := gentle_release (d := d) custody
  have hsound := g.sound.release custody
  refine ⟨⟨⟨ps, hready.keeps hkeeps hsound (fun p hp => Option.some.inj hp ▸ hc)
    (fun hnone => by cases hnone) hpieces fun e he => ?_, halike⟩, g.proper, g.nodup,
    fun n hn => hkeeps.has (g.has n hn), g.aside, fun f hf => ?_, g.free,
    fun n hn => hkeeps.has (g.has_fixed n hn)⟩, steady_of_keeps hkeeps g.sound.forest hsound.forest hc⟩
  · exact (List.mem_append.1 he).elim (hheld e) (hentries e)
  · obtain ⟨hhas, hfragment, hempty⟩ := g.emptied f hf
    exact ⟨hgentle.has f hhas, (hgentle.isFragment hhas).trans hfragment,
      hgentle.empty f hhas hfragment hempty⟩

/-- All bindings of an instance are brought up to date. -/
theorem refilled (hK : Around kept K) (level : Level) (custody : Custody)
    (hr : Supersedes roots holes es xs ps ps') (hlength : A.length = l.length)
    (g : level.document.Exposes c fixed stock (K (seated i roots (A ++ es) (l ++ xs))))
    (hc : c ∈ custody.nodes) (hstock : stock.held ⊆ kept) (hkept : kept ⊆ custody.nodes ++ level.held)
    (hA : ∀ e ∈ A ++ entriesAll (l ++ xs), e.1.held ⊆ custody.nodes ++ level.held) :
    ∃ es' d', level.fill custody (es.map Prod.fst) (results xs)
        = (es'.map Prod.fst, { level with document := d' }) ∧
      d'.Exposes c fixed stock (K (seated i roots (A ++ es') (l ++ xs))) ∧
      level.document.Steady d' c fixed ∧
      d'.mutations ≤ level.document.mutations + 2 * Plan.outerAll ps ps' ∧
      ShownIn roots holes es' xs ps' := by
  induction hr generalizing level custody A l with
  | nil => exact ⟨[], level.document, rfl, g, .refl _ c fixed, Nat.le_add_right _ _, .nil⟩
  | @cons h e x p p' holes es xs ps ps' hat hshown hshows hlike hfits hfits' hleaf _ ih =>
    obtain ⟨e', d', hupdate, g', hsteady, hle, hat', hshown', -⟩ :=
      g.update hK hlength hat hshown hshows hlike hfits hfits' hleaf
    generalize hcustody' : custody.holding
      (e'.1.held ++ (es.map Prod.fst).flatMap Binding.held ++ level.held) = custody' at *
    have hnodes' : custody'.nodes = e'.1.held ++ (es.map Prod.fst).flatMap Binding.held ++ level.held
        ++ custody.nodes := by
      rw [← hcustody']
      rfl
    have hin : custody.nodes ++ level.held ⊆ custody'.nodes := by
      rw [hnodes']
      intro n hn
      rcases List.mem_append.1 hn with hn | hn
      · exact List.mem_append_right _ hn
      · exact List.mem_append_left _ (List.mem_append_right _ hn)
    have hout : custody.nodes ++ level.held ⊆ (custody.holding e'.1.held).nodes ++ level.held := by
      intro n hn
      rcases List.mem_append.1 hn with hn | hn
      · exact List.mem_append_left _ (List.mem_append_right _ hn)
      · exact List.mem_append_right _ hn
    have hself : e'.1.held ⊆ (custody.holding e'.1.held).nodes := List.subset_append_left ..
    have hheld : ∀ e'' ∈ (K (seated i roots (A ++ e' :: es) (l ++ x :: xs))).entries,
        e''.1.held ⊆ custody'.nodes := by
      intro e'' he
      rcases hK.held he with he | he
      · rw [entries_seated, List.mem_append, List.mem_append, List.mem_cons] at he
        rcases he with (he | rfl | he) | he
        · exact List.Subset.trans (hA _ (List.mem_append_left _ he)) hin
        · rw [hnodes']
          exact fun n hn => List.mem_append_left _ (List.mem_append_left _ (List.mem_append_left _ hn))
        · rw [hnodes']
          refine fun n hn => List.mem_append_left _ (List.mem_append_left _ (List.mem_append_right _ ?_))
          exact List.mem_flatMap.2 ⟨e''.1, List.mem_map_of_mem he, hn⟩
        · exact List.Subset.trans (hA _ (List.mem_append_right _ he)) hin
      · exact List.Subset.trans (List.Subset.trans he hkept) hin
    obtain ⟨g'', hsteady'⟩ := g'.release (hin (List.mem_append_left _ hc))
      (List.Subset.trans (List.Subset.trans hstock hkept) hin) hheld
    have hmutations : (d'.release custody').mutations = d'.mutations := mutations_release custody'
    have hlist : A ++ e' :: es = A ++ [e'] ++ es := by simp
    have hlist' : l ++ x :: xs = l ++ [x] ++ xs := by simp
    rw [hlist, hlist'] at g''
    obtain ⟨es', d₃, hfill, g₃, hsteady₃, hle₃, hshown₃⟩ := ih
      { level with document := d'.release custody' } (custody.holding e'.1.held)
      (by rw [List.length_append, List.length_append, hlength]; rfl) g''
      (List.mem_append_right _ hc) (List.Subset.trans hkept hout) (fun e'' he => by
        rw [← hlist', List.mem_append, List.mem_append, List.mem_singleton] at he
        rcases he with (he | rfl) | he
        · exact List.Subset.trans (hA _ (List.mem_append_left _ he)) hout
        · exact fun n hn => List.mem_append_left _ (hself hn)
        · exact List.Subset.trans (hA _ (List.mem_append_right _ he)) hout)
    refine ⟨e' :: es', d₃, ?_, ?_, ?_, ?_, .cons hat' hshown' (fun hne => ?_) hshown₃⟩
    · have hrelease : ({ level with document := d' } : Level).release custody
          (e'.1.held ++ (es.map Prod.fst).flatMap Binding.held)
          = { level with document := d'.release custody' } := by
        rw [← hcustody']
        rfl
      rw [List.map_cons, results, Level.fill, hupdate]
      dsimp only
      rw [hrelease, hfill]
      rfl
    · rw [List.append_assoc, List.append_assoc] at g₃
      exact g₃
    · exact (hsteady.trans hsteady' g.sound.forest).trans hsteady₃ g.sound.forest
    · rw [Plan.outerAll]
      dsimp only at hle₃
      omega
    · obtain ⟨v, rfl⟩ := hleaf hne
      exact Plan.eq_leaf_of_like hlike

end Document

end LiveMarkup
