import LiveMarkup.Proofs.Rendering.Updating
import LiveMarkup.Rendering.Realization
/-!
# A new instance with its holes filled

The bindings of a new instance are brought up to date one after another, and after each of them all that
is not held is let go of. As everything that is still needed is held, the instance ends up with what all
of its holes add, and remembers it (`filled`).
-/

namespace LiveMarkup

variable {roots : List Plant} {h : Hole} {e : Binding × Spot} {x : Exhibit} {p : Plan}
  {holes : List Hole} {es entries : List (Binding × Spot)} {xs : List Exhibit} {ps : List Plan}
  {t : Trimming NodeId Plant}

/-- Some holes that are to show some plans, of which exhibits are there. -/
inductive Awaits (roots : List Plant) :
    List Hole → List (Binding × Spot) → List Exhibit → List Plan → Prop where
  | nil : Awaits roots [] [] [] []
  | cons {h : Hole} {e : Binding × Spot} {x : Exhibit} {p : Plan} {holes : List Hole}
      {es : List (Binding × Spot)} {xs : List Exhibit} {ps : List Plan} (at_ : h.At roots e)
      (unused : Unused e) (shows_ : x.Shows p) (fits : p.Fits)
      (leaf : h.kind ≠ .child → ∃ v, p = .leaf v) (rest : Awaits roots holes es xs ps) :
      Awaits roots (h :: holes) (e :: es) (x :: xs) (p :: ps)

theorem awaits_of_forall₂ {r : Hole → Binding × Spot → Prop}
    (heach : List.Forall₂ (fun h e => h.At roots e ∧ Unused e ∧ r h e) holes es)
    (hshows : Exhibit.ShowsAll xs ps) (hlength : holes.length = ps.length)
    (hfits : ∀ p ∈ ps, p.Fits)
    (hleaves : ∀ h ∈ holes.zip ps, h.1.kind ≠ .child → ∃ v, h.2 = .leaf v) :
    Awaits roots holes es xs ps := by
  induction heach generalizing xs ps with
  | nil =>
    cases ps with
    | cons p ps => cases hlength
    | nil =>
      cases xs with
      | cons x xs => exact False.elim hshows
      | nil => exact .nil
  | @cons h e holes es hhe _ ih =>
    cases ps with
    | nil => cases hlength
    | cons p ps =>
      cases xs with
      | nil => exact False.elim hshows
      | cons x xs =>
        refine .cons hhe.1 hhe.2.1 hshows.1 (hfits p (List.mem_cons_self ..))
          (hleaves (h, p) (List.mem_cons_self ..)) (ih hshows.2 (Nat.succ.inj hlength)
          (fun p hp => hfits p (List.mem_cons_of_mem _ hp)) fun h hh => ?_)
        exact hleaves h (List.mem_cons_of_mem _ hh)

/-- Content has been put nowhere above a child hole that is still to be filled, nor where a text hole
is. -/
structure Clear (roots : List Plant) (t : Trimming NodeId Plant) (holes : List Hole) : Prop where
  nodup : (Plant.idsAll roots).Nodup
  above : ∀ h ∈ holes, h.kind = .child → ∀ path r, path <+: h.path → path ≠ h.path →
    Plant.follow roots path = some r → t.content r.id = none
  free : ∀ h ∈ holes, h.kind = .text → ∀ q, Plant.follow roots h.path = some q →
    t.content q.id = none
  apart : holes.Pairwise Hole.Precedes
  open_ : ∀ h ∈ holes, ∀ h' ∈ holes, h.kind = .text → h'.kind = .child → ¬ h.path <+: h'.path

namespace Clear

/-- A child hole is in sight. -/
theorem visible (hc : Clear roots t holes) (hh : h ∈ holes) (hkind : h.kind = .child) {q : Plant}
    (hq : Plant.follow roots h.path = some q) {t' : Trimming NodeId Plant}
    (ht : t'.content = t.content) : q.id ∈ Plant.idsAll (Plant.graftAll t'.put roots) :=
  Trimming.mem_graftAll_put_of_follow hq fun path r hpath hne hr => by
    rw [ht]
    exact hc.above h hh hkind path r hpath hne hr

/-- What a spot puts somewhere as content is for the text hole there. -/
theorem content_trimmingWith (hat : h.At roots e) (plants : List Plant) {n : NodeId}
    (hn : (e.2.trimmingWith plants).content n ≠ none) :
    h.kind = .text ∧ ∃ q, Plant.follow roots h.path = some q ∧ q.id = n := by
  obtain ⟨q, hq, hplace, hkind⟩ := hat
  obtain ⟨b, s⟩ := e
  cases s with
  | child m qs => exact absurd rfl hn
  | attr m name value => exact absurd rfl hn
  | text m content =>
    cases content with
    | none => exact absurd rfl hn
    | some qs =>
      by_cases hnm : n = m
      · refine ⟨?_, q, hq, ?_⟩
        · obtain ⟨kind, path⟩ := h
          cases kind <;> cases b <;> first | rfl | exact False.elim hkind
        · rw [hnm]
          exact hplace.symm
      · refine absurd ?_ hn
        show ((if n = m then some qs else none : Option (List Plant)).or none) = none
        rw [if_neg hnm]
        rfl

theorem next (hc : Clear roots t (h :: holes)) (hat : h.At roots e) (plants : List Plant) :
    Clear roots (t.join (e.2.trimmingWith plants)) holes := by
  have hjoin : ∀ n, t.content n = none → (e.2.trimmingWith plants).content n = none →
      (t.join (e.2.trimmingWith plants)).content n = none := by
    intro n hn hn'
    show (t.content n).or ((e.2.trimmingWith plants).content n) = none
    rw [hn, hn']
    rfl
  have hmem : h ∈ h :: holes := List.mem_cons_self ..
  refine ⟨hc.nodup, fun h' hh' hkind path r hpath hne hr => ?_, fun h' hh' hkind q hq => ?_,
    (List.pairwise_cons.1 hc.apart).2, fun h' hh' h'' hh'' =>
    hc.open_ h' (List.mem_cons_of_mem _ hh') h'' (List.mem_cons_of_mem _ hh'')⟩
  · refine hjoin _ (hc.above h' (List.mem_cons_of_mem _ hh') hkind path r hpath hne hr) ?_
    by_contra hcontent
    obtain ⟨htext, q, hq, hid⟩ := content_trimmingWith hat plants hcontent
    have hpath' := Plant.eq_of_follow hc.nodup hq hr hid
    exact hc.open_ h hmem h' (List.mem_cons_of_mem _ hh') htext hkind (hpath' ▸ hpath)
  · refine hjoin _ (hc.free h' (List.mem_cons_of_mem _ hh') hkind q hq) ?_
    by_contra hcontent
    obtain ⟨htext, q', hq', hid⟩ := content_trimmingWith hat plants hcontent
    have hpath := Plant.eq_of_follow hc.nodup hq' hq hid
    obtain ⟨name, hname⟩ := (List.pairwise_cons.1 hc.apart).1 h' hh' hpath
    rw [htext] at hname
    cases hname

end Clear

theorem clear_of_coherent {compiled : Compiled} (hc : compiled.Coherent) (hp : compiled.Plain)
    (hnd : (Plant.idsAll roots).Nodup) : Clear roots .none compiled.holes :=
  ⟨hnd, fun _ _ _ _ _ _ _ _ => rfl, fun _ _ _ _ _ => rfl, hc.apart, hp.open_⟩

/-! ### Filling all holes -/

namespace Document

variable {start d : Document} {root : Option NodeId} {nodes : List NodeId}

/-- What the holes of an instance are filled with is in place at the end. -/
theorem filled (level : Level) (custody : Custody) (ha : Awaits roots holes es xs ps)
    (hc : Clear roots t holes)
    (F : Filling start level.document root roots t (Exhibit.piecesAll xs) (es ++ entries))
    (hk : Keeps start level.document nodes)
    (htop : ∀ h ∈ holes, h.kind = .child → root = none → ∀ q,
      Plant.follow roots h.path = some q → q.id ∉ roots.map Plant.id)
    (hnew : ∀ e ∈ es, e.1.IsNew start)
    (hown : ∀ e ∈ es, ∀ c, e.1 = .child c → c.text ∉ Plant.idsAll roots)
    (hnodes : nodes ⊆ custody.nodes ++ level.held) (hroot : ∀ p, root = some p → p ∈ custody.nodes)
    (htops : root = none → ∀ n ∈ roots.map Plant.id, n ∈ custody.nodes)
    (hpieces : ∀ x ∈ Exhibit.piecesAll xs, x.1.held ⊆ custody.nodes ++ level.held)
    (hentries : ∀ e ∈ entries, e.1.held ⊆ custody.nodes ++ level.held) :
    ∃ es' d', level.fill custody (es.map Prod.fst) (Exhibit.results xs)
        = (es'.map Prod.fst, { level with document := d' }) ∧
      Filling start d' root roots
        (t.join (Spot.trimmings (es'.map Prod.snd) (Exhibit.plantsAll xs))) [] (es' ++ entries) ∧
      Keeps start d' nodes ∧ Exhibit.ShownIn roots holes es' xs ps ∧
      (∀ e ∈ es', e.1.IsNew start) ∧
      (es'.map Prod.fst).flatMap Binding.texts = (es.map Prod.fst).flatMap Binding.texts ∧
      level.document.Novel d' (Plant.idsAll ((es'.map Prod.snd).flatMap Spot.content)) ∧
      level.document.Gentle d' ∧
      ∀ f ∈ Exhibit.placed es', d'.isFragment f = true ∧ d'.children f = [] := by
  induction ha generalizing level custody t entries with
  | nil =>
    refine ⟨[], level.document, rfl, ?_, hk, .nil, fun e he => by (cases he), rfl, ?_, .refl _, fun f hf => by
      cases hf⟩
    · rw [List.map_nil, Spot.trimmings_nil, Trimming.join_none]
      exact F
    · rw [List.map_nil, List.flatMap_nil, Plant.idsAll_nil]
      exact .nil (Nat.le_refl _)
  | @cons h e x p holes es xs ps hat hunused hshows hfits hleaf _ ih =>
    have hmem : h ∈ h :: holes := List.mem_cons_self ..
    obtain ⟨q, hq, hplace, -⟩ := id hat
    rw [Exhibit.piecesAll] at F
    obtain ⟨e', d', hupdate, F', hspares, hat', hshown, hnew', htexts, hnovel, hgentle, hvacated⟩ := F.update
      hat hunused hshows hfits hleaf
      (fun hkind t' ht' => hplace ▸ hc.visible hmem hkind hq ht')
      (fun hkind hr => hplace ▸ htop h hmem hkind hr q hq)
      (fun hkind => hplace ▸ hc.free h hmem hkind q hq) (hnew e (List.mem_cons_self ..))
      (hown e (List.mem_cons_self ..))
    generalize hcustody' : custody.holding
      (e'.1.held ++ (es.map Prod.fst).flatMap Binding.held ++ level.held) = custody' at *
    have hnodes' : custody'.nodes = e'.1.held ++ (es.map Prod.fst).flatMap Binding.held ++ level.held
        ++ custody.nodes := by
      rw [← hcustody']
      rfl
    have hin : custody.nodes ++ level.held ⊆ custody'.nodes := by
      rw [hnodes']
      intro n hn
      rcases List.mem_append.1 hn with hn | hn
      · exact List.mem_append_right _ hn
      · exact List.mem_append_left _ (List.mem_append_right _ hn)
    have hout : custody.nodes ++ level.held ⊆ (custody.holding e'.1.held).nodes ++ level.held := by
      intro n hn
      rcases List.mem_append.1 hn with hn | hn
      · exact List.mem_append_left _ (List.mem_append_right _ hn)
      · exact List.mem_append_right _ hn
    have hself : e'.1.held ⊆ custody'.nodes := by
      rw [hnodes', List.append_assoc, List.append_assoc]
      exact List.subset_append_left ..
    have hothers : ∀ e ∈ es ++ entries, e.1.held ⊆ custody'.nodes := by
      intro e he
      rcases List.mem_append.1 he with he | he
      · rw [hnodes']
        intro n hn
        refine List.mem_append_left _ (List.mem_append_left _ (List.mem_append_right _ ?_))
        exact List.mem_flatMap.2 ⟨e.1, List.mem_map_of_mem he, hn⟩
      · exact List.Subset.trans (hentries e he) hin
    have hrest : ∀ x ∈ Exhibit.piecesAll xs, x.1.held ⊆ custody.nodes ++ level.held := fun y hy =>
      hpieces y (by rw [Exhibit.piecesAll]; exact List.mem_append_right _ hy)
    have F'' := (F'.release (fun p hp => hin (List.mem_append_left _ (hroot p hp)))
      (fun hr n hn => hin (List.mem_append_left _ (htops hr n hn)))
      (fun y hy => List.Subset.trans (hrest y hy) hin)
      (List.forall_mem_cons.2 ⟨hself, hothers⟩)).perm List.perm_middle.symm
    have hk' := (hk.spares hspares).trans (keeps_release (List.Subset.trans hnodes hin))
    obtain ⟨es', d₃, hfill, F₃, hk₃, hshown₃, hnew₃, htexts₃, hnovel₃, hgentle₃, hempty₃⟩ := ih
      { level with document := d'.release custody' } (custody.holding e'.1.held)
      (hc.next hat' x.plants) F'' hk'
      (fun h hh => htop h (List.mem_cons_of_mem _ hh))
      (fun e he => hnew e (List.mem_cons_of_mem _ he))
      (fun e he => hown e (List.mem_cons_of_mem _ he)) (List.Subset.trans hnodes hout)
      (fun p hp => List.mem_append_right _ (hroot p hp))
      (fun hr n hn => List.mem_append_right _ (htops hr n hn))
      (fun y hy => List.Subset.trans (hrest y hy) hout)
      (List.forall_mem_cons.2 ⟨fun n hn => List.mem_append_left _ (List.mem_append_left _ hn),
        fun e he => List.Subset.trans (hentries e he) hout⟩)
    refine ⟨e' :: es', d₃, ?_, ?_, hk₃, .cons hat' hshown hleaf hshown₃,
      List.forall_mem_cons.2 ⟨hnew', hnew₃⟩, ?_, ?_,
      (hgentle.trans (gentle_release custody')).trans hgentle₃, fun f hf => ?_⟩
    · have hrelease : ({ level with document := d' } : Level).release custody
          (e'.1.held ++ (es.map Prod.fst).flatMap Binding.held)
          = { level with document := d'.release custody' } := by
        rw [← hcustody']
        rfl
      rw [List.map_cons, Exhibit.results, Level.fill, hupdate]
      dsimp only
      rw [hrelease, hfill]
      rfl
    · rw [List.map_cons, Exhibit.plantsAll, Spot.trimmings, ← Trimming.join_assoc]
      exact F₃.perm List.perm_middle
    · rw [List.map_cons, List.flatMap_cons, htexts, htexts₃, List.map_cons, List.flatMap_cons]
    · have hrelease := (keeps_release (d := d') (List.Subset.refl custody'.nodes)).nodes_le
      rw [List.map_cons, List.flatMap_cons, Plant.idsAll_append]
      exact (hnovel.mono hrelease).append hnovel₃
    · rw [Exhibit.placed_cons, List.mem_append] at hf
      exact hf.elim (fun hf => (((hvacated.gentle (gentle_release custody')).gentle hgentle₃).empty f hf).2)
        (hempty₃ f)

end Document

end LiveMarkup
