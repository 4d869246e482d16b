import LiveMarkup.Proofs.Rendering.Turning
/-!
# Filling an instance with something else

The bindings of an instance that has been on show are brought up to date one after another with what has become
of the things in its holes (`Exhibit.Turns`). What has been made for a hole stands beside it until its turn
comes; when all have been brought up to date, all of it is in place (`Document.Carries.refilled`).
-/

namespace LiveMarkup

open Exhibit

namespace Exhibit

/-- What is in some holes has become something else: what is in place of it still, what has been made for it,
and what is to be shown. -/
inductive Turns (roots : List Plant) : List Hole → List (Binding × Spot) → List Exhibit → List (List Exhibit) →
    List Exhibit → List Plan → Prop where
  | nil : Turns roots [] [] [] [] [] []
  | cons {h : Hole} {e : Binding × Spot} {z x : Exhibit} {ys : List Exhibit} {p p' : Plan} {holes : List Hole}
      {es : List (Binding × Spot)} {zs xs : List Exhibit} {yss : List (List Exhibit)} {ps' : List Plan}
      (at_ : h.At roots e) (shown : Shown e z.blocks p) (bare : p.primitive?.isSome = true → z.pieces = [])
      (fits : p.Fits) (becomes : Becomes [z] ys [x]) (shows_ : x.Shows p') (fits' : p'.Fits)
      (leaf : h.kind ≠ .child → ∃ v w, p = .leaf v ∧ p' = .leaf w ∧ z = .leaf w ∧ ys = [])
      (rest : Turns roots holes es zs yss xs ps') :
      Turns roots (h :: holes) (e :: es) (z :: zs) (ys :: yss) (x :: xs) (p' :: ps')

variable {roots : List Plant} {holes : List Hole} {es : List (Binding × Spot)} {zs xs : List Exhibit}
  {yss : List (List Exhibit)} {ps : List Plan}

/-- The bindings of what is in place are among those of what is to be shown. -/
theorem Turns.entries_subset (h : Turns roots holes es zs yss xs ps) : entriesAll zs ⊆ entriesAll xs := by
  induction h with
  | nil => exact List.Subset.refl _
  | cons _ _ _ _ becomes _ _ _ _ ih =>
    rw [entriesAll, entriesAll]
    intro e he
    rw [List.mem_append] at he ⊢
    exact he.imp (becomes.entries_single ·) (ih ·)

/-- What has been made is kept alive by what is to be shown. -/
theorem Turns.held (h : Turns roots holes es zs yss xs ps) : Stock.held ⟨yss.flatten, []⟩ ⊆ heldAll xs := by
  induction h with
  | nil => exact List.nil_subset _
  | @cons _ _ _ x _ _ _ _ _ _ xs _ _ _ _ _ _ becomes _ _ _ _ ih =>
    rw [List.flatten_cons]
    exact Stock.held_append_subset.2 ⟨fun n hn => (heldAll_cons x xs n).2 (.inl (becomes.held_single hn)),
      fun n hn => (heldAll_cons x xs n).2 (.inr (ih hn))⟩

end Exhibit

namespace Document.Carries

variable {d : Document} {c : NodeId} {kept : List NodeId} {K : Exhibit → Exhibit} {i : Instance}
  {roots : List Plant} {e : Binding × Spot} {A B es : List (Binding × Spot)} {x : Exhibit}
  {l r zs xs made : List Exhibit} {yss : List (List Exhibit)} {h : Hole} {holes : List Hole} {v w : Value}
  {ps : List Plan} {p p' : Plan} {z : Exhibit} {ys : List Exhibit} {custody : Custody}

/-- A binding that is not for content is brought up to date. -/
theorem renew (g : d.Carries c made (K (seated i roots (A ++ e :: B) (l ++ .leaf w :: r)))) (hK : Framing kept K)
    (hlength : A.length = l.length) (hat : h.At roots e) (hkind : h.kind ≠ .child)
    (hshown : Shown e [] (.leaf v)) (hfits : (Plan.leaf v).Fits) (hfits' : (Plan.leaf w).Fits) :
    ∃ e' d', e.1.update d w = (e'.1, d') ∧
      d'.Carries c made (K (seated i roots (A ++ e' :: B) (l ++ .leaf w :: r))) ∧ h.At roots e' ∧
      Shown e' [] (.leaf w) := by
  obtain ⟨e', d', hupdate, hexposes, -, -, hat', hshown', -⟩ := g.exposes.update hK.toAround hlength hat hshown
    (show (Exhibit.leaf w).Shows (.leaf w) from rfl) trivial hfits hfits' fun _ => ⟨v, rfl⟩
  have hself : Becomes [.leaf w] [] [.leaf w] := .refl fun y hy => by cases hy
  obtain ⟨rest, hold, hnew⟩ := hK.entries_turn i roots A B l r hself made e
  refine ⟨e', d', hupdate, .intro hexposes (.refl _) ⟨g.nodup, hexposes.emptied⟩ ?_ g.spans g.clear, hat',
    hshown'⟩
  refine (placed_perm hold).trans (.trans (.of_eq ?_) (placed_perm (hnew e')).symm)
  rw [placed_cons, placed_cons, placed_of_at hat hkind, placed_of_at hat' hkind]

/-- A binding is brought up to date, whatever it is for. -/
theorem turn_hole (g : d.Carries c (ys ++ made) (K (seated i roots (A ++ e :: B) (l ++ z :: r))))
    (hK : Framing kept K) (hlength : A.length = l.length) (hat : h.At roots e) (hshown : Shown e z.blocks p)
    (hbare : p.primitive?.isSome = true → z.pieces = []) (hfits : p.Fits) (hbecomes : Becomes [z] ys [x])
    (hshows : x.Shows p') (hfits' : p'.Fits)
    (hleaf : h.kind ≠ .child → ∃ v w, p = .leaf v ∧ p' = .leaf w ∧ z = .leaf w ∧ ys = []) :
    ∃ e' d', e.1.update d x.result = (e'.1, d') ∧
      d'.Carries c made (K (seated i roots (A ++ e' :: B) (l ++ x :: r))) ∧ h.At roots e' ∧
      Shown e' x.blocks p' := by
  by_cases hkind : h.kind = .child
  · obtain ⟨b, n, plants, rfl⟩ := hat.child hkind
    obtain ⟨b', plants', d', hupdate, g', hshown', -⟩ := g.turn hK hlength hbecomes hshows hfits' hshown hbare
    refine ⟨(.child b', .child n plants'), d', ?_, g', at_of_child hat, hshown'⟩
    rw [Binding.update, hupdate]
  · obtain ⟨v, w, rfl, rfl, rfl, rfl⟩ := hleaf hkind
    obtain rfl := eq_leaf_of_shows hshows
    exact g.renew hK hlength hat hkind hshown hfits hfits'

/-- All bindings of an instance are brought up to date. -/
theorem refilled (hK : Framing kept K) (level : Level) (custody : Custody)
    (hr : Turns roots holes es zs yss xs ps) (hlength : A.length = l.length)
    (g : level.document.Carries c (yss.flatten ++ made) (K (seated i roots (A ++ es) (l ++ zs))))
    (hc : c ∈ custody.nodes) (hmade : Stock.held ⟨yss.flatten ++ made, []⟩ ⊆ custody.nodes ++ level.held)
    (hkept : kept ⊆ custody.nodes ++ level.held)
    (hA : ∀ e ∈ A ++ entriesAll (l ++ xs), e.1.held ⊆ custody.nodes ++ level.held) :
    ∃ es' d', level.fill custody (es.map Prod.fst) (results xs)
        = (es'.map Prod.fst, { level with document := d' }) ∧
      d'.Carries c made (K (seated i roots (A ++ es') (l ++ xs))) ∧ ShownIn roots holes es' xs ps := by
  induction hr generalizing level custody A l with
  | nil => exact ⟨[], level.document, rfl, g, .nil⟩
  | @cons h e z x ys p p' holes es zs xs yss ps hat hshown hbare hfits hbecomes hshows hfits' hleaf hrest ih =>
    rw [List.flatten_cons, List.append_assoc] at g hmade
    obtain ⟨e', d', hupdate, g', hat', hshown'⟩ :=
      g.turn_hole hK hlength hat hshown hbare hfits hbecomes hshows hfits' hleaf
    have hmade' : Stock.held ⟨yss.flatten ++ made, []⟩ ⊆ custody.nodes ++ level.held :=
      (Stock.held_append_subset.1 hmade).2
    generalize hcustody' : custody.holding
      (e'.1.held ++ (es.map Prod.fst).flatMap Binding.held ++ level.held) = custody' at *
    have hnodes' : custody'.nodes = e'.1.held ++ (es.map Prod.fst).flatMap Binding.held ++ level.held
        ++ custody.nodes := by
      rw [← hcustody']
      rfl
    have hin : custody.nodes ++ level.held ⊆ custody'.nodes := by
      rw [hnodes']
      intro n hn
      rcases List.mem_append.1 hn with hn | hn
      · exact List.mem_append_right _ hn
      · exact List.mem_append_left _ (List.mem_append_right _ hn)
    have hout : custody.nodes ++ level.held ⊆ (custody.holding e'.1.held).nodes ++ level.held := by
      intro n hn
      rcases List.mem_append.1 hn with hn | hn
      · exact List.mem_append_left _ (List.mem_append_right _ hn)
      · exact List.mem_append_right _ hn
    have hself : e'.1.held ⊆ (custody.holding e'.1.held).nodes := List.subset_append_left ..
    have hheld : ∀ e'' ∈ (K (seated i roots (A ++ e' :: es) (l ++ x :: zs))).entries,
        e''.1.held ⊆ custody'.nodes := by
      intro e'' he
      have hsub := hrest.entries_subset
      rcases hK.held he with he | he
      · rw [entries_seated, List.mem_append, List.mem_append, List.mem_cons] at he
        rcases he with (he | rfl | he) | he
        · exact List.Subset.trans (hA _ (List.mem_append_left _ he)) hin
        · rw [hnodes']
          exact fun n hn => List.mem_append_left _ (List.mem_append_left _ (List.mem_append_left _ hn))
        · rw [hnodes']
          refine fun n hn => List.mem_append_left _ (List.mem_append_left _ (List.mem_append_right _ ?_))
          exact List.mem_flatMap.2 ⟨e''.1, List.mem_map_of_mem he, hn⟩
        · refine List.Subset.trans (hA _ (List.mem_append_right _ ?_)) hin
          rw [entriesAll_append, entriesAll, List.mem_append, List.mem_append] at he ⊢
          exact he.imp_right (Or.imp_right (hsub ·))
      · exact List.Subset.trans (List.Subset.trans he hkept) hin
    have g'' := g'.release (hin (List.mem_append_left _ hc)) (List.Subset.trans hmade' hin) hheld
    have hlist : A ++ e' :: es = A ++ [e'] ++ es := by simp
    have hlist' : ∀ ys : List Exhibit, l ++ x :: ys = l ++ [x] ++ ys := by simp
    rw [hlist, hlist'] at g''
    obtain ⟨es', d₃, hfill, g₃, hshown₃⟩ := ih
      { level with document := d'.release custody' } (custody.holding e'.1.held)
      (by rw [List.length_append, List.length_append, hlength]; rfl) g''
      (List.mem_append_right _ hc) (List.Subset.trans hmade' hout) (List.Subset.trans hkept hout)
      (fun e'' he => by
        rw [← hlist', List.mem_append, List.mem_append, List.mem_singleton] at he
        rcases he with (he | rfl) | he
        · exact List.Subset.trans (hA _ (List.mem_append_left _ he)) hout
        · exact fun n hn => List.mem_append_left _ (hself hn)
        · exact List.Subset.trans (hA _ (List.mem_append_right _ he)) hout)
    refine ⟨e' :: es', d₃, ?_, ?_, .cons hat' hshown' (fun hne => ?_) hshown₃⟩
    · have hrelease : ({ level with document := d' } : Level).release custody
          (e'.1.held ++ (es.map Prod.fst).flatMap Binding.held)
          = { level with document := d'.release custody' } := by
        rw [← hcustody']
        rfl
      rw [List.map_cons, results, Level.fill, hupdate]
      dsimp only
      rw [hrelease, hfill]
      rfl
    · rw [List.append_assoc, List.append_assoc] at g₃
      exact g₃
    · obtain ⟨v, w, -, rfl, -⟩ := hleaf hne
      exact ⟨w, rfl⟩

end Document.Carries

end LiveMarkup
