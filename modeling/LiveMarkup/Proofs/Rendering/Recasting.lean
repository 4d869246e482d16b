import LiveMarkup.Proofs.Rendering.Exchange
import LiveMarkup.Proofs.Rendering.Repetition
/-!
# An exhibit in the place of another one

What is shown in a hole can give way to something else altogether, and a graft that leaves all other nodes alone
says what this does to the plants (`Exhibit.Recasts`). For a child hole it takes away what has been in front of
the placeholder, and puts there what is to come (`Exhibit.recasts_hole`). Such a change inside an exhibit that is
nested in another one is a change of that one as well, whose rows are longer ones of the same nodes
(`Exhibit.Framing`).
-/

namespace LiveMarkup

open Exhibit

namespace Trimming

variable {t : Trimming NodeId Plant} {f : Plant → List Plant} {ps : List Plant}

/-- A graft about nodes that are in nothing that a trimming adds leaves the trimming as it is. -/
theorem map_eq_self (h : ∀ q : Plant, f q ≠ [q] → t.Avoids q.id) : t.map (Plant.graftAll f) = t := by
  have hself : ∀ qs : List Plant, (∀ n ∈ Plant.idsAll qs, ¬ t.Avoids n) → Plant.graftAll f qs = qs :=
    fun qs hqs => Plant.graftAll_eq_self fun q hq => by_contra fun hne => hqs q.id hq (h q hne)
  rw [map]
  refine Trimming.mk.injEq .. ▸ ⟨funext fun k => hself _ fun n hn ha => ha.before k hn, rfl, funext fun k => ?_⟩
  cases hk : t.content k with
  | none => rfl
  | some qs => exact congrArg some (hself qs fun n hn ha => ha.content k qs hk hn)

/-- What is put in front of a node that stays in sight stands there. -/
theorem site_graftAll_put {path : List Nat} {r : Plant} (h : Plant.follow ps path = some r)
    (habove : ∀ ρ r', ρ <+: path → ρ ≠ path → Plant.follow ps ρ = some r' →
      t.content r'.id = Option.none) :
    ∃ front q behind, Plant.Row (Plant.graftAll t.put ps) (front ++ t.before r.id ++ q :: behind) ∧
      q.id = r.id := by
  induction path generalizing ps with
  | nil => cases h
  | cons i path ih =>
    obtain ⟨q, hq, hr⟩ := Plant.follow_cons.1 h
    have hmem : q ∈ ps := List.mem_of_getElem? hq
    cases path with
    | nil =>
      obtain rfl : q = r := Option.some.inj hr
      obtain ⟨l, l', rfl⟩ := List.append_of_mem hmem
      obtain ⟨q', hput, hq'⟩ : ∃ q' : Plant, q.graft t.put = t.before q.id ++ [q'] ∧ q'.id = q.id := by
        cases q <;>
        · rw [Plant.graft, put]
          exact ⟨_, rfl, rfl⟩
      refine ⟨Plant.graftAll t.put l, q', Plant.graftAll t.put l', ?_, hq'⟩
      rw [Plant.graftAll_append, Plant.graftAll_cons, hput]
      simpa using Plant.Row.self _
    | cons j path =>
      have hnone := habove [i] q (List.cons_prefix_cons.2 ⟨rfl, List.nil_prefix⟩) (by simp)
        (Plant.follow_cons.2 ⟨q, hq, rfl⟩)
      cases q with
      | text id data =>
        obtain ⟨c, hc, -⟩ := Plant.follow_cons.1 (Plant.at?_cons ▸ hr)
        simp [Plant.children] at hc
      | comment id data =>
        obtain ⟨c, hc, -⟩ := Plant.follow_cons.1 (Plant.at?_cons ▸ hr)
        simp [Plant.children] at hc
      | element id tag children =>
        obtain ⟨front, q', behind, hrow, hid⟩ := @ih children hr fun ρ r' hρ hne hr' => by
          refine habove (i :: ρ) r' (List.cons_prefix_cons.2 ⟨rfl, hρ⟩) (by simpa using hne) ?_
          cases ρ with
          | nil => cases hr'
          | cons k ρ => exact Plant.follow_cons.2 ⟨_, hq, hr'⟩
        rw [Plant.id_element] at hnone
        refine ⟨front, q', behind, ?_, hid⟩
        have hput : Plant.element id { tag with attributes := tag.attributes ++ t.attributes id }
            (Plant.graftAll t.put children) ∈ Plant.graftAll t.put ps := by
          refine Plant.mem_graftAll.2 ⟨_, hmem, ?_⟩
          rw [Plant.graft, put, hnone]
          exact List.mem_append_right _ (List.mem_singleton_self _)
        exact .inside hput hrow

end Trimming

namespace Exhibit

variable {f : Plant → List Plant} {m n k : NodeId} {i : Instance} {roots plants plants' : List Plant}
  {e e' : Binding × Spot} {es A B : List (Binding × Spot)} {x x' z : Exhibit} {l r : List Exhibit}
  {c : Compiled} {before after : List Hole} {h : Hole} {b b' : ChildBinding} {kept kept' : List NodeId}
  {K : Exhibit → Exhibit}

/-! ### The site of a child hole -/

namespace Opening

/-- Behind a child hole, nothing else is put in front of its placeholder. -/
theorem before_behind (H : Opening c roots A e B l x r before h after) (hnd : (Plant.idsAll roots).Nodup)
    (hkind : h.kind = .child) : (added B r).before e.2.place = [] := by
  by_contra hne
  obtain ⟨q, hq⟩ := List.exists_mem_of_ne_nil _ hne
  obtain ⟨h', hh', e', -, -, -, -, hat', hplace, -⟩ := H.behind.mem_before hq
  obtain ⟨raw, hraw⟩ := H.attr_of_behind hnd hh' hat' hplace
  rw [hkind] at hraw
  cases hraw

/-- What is shown in a child hole stands in front of its placeholder. -/
theorem exists_site (H : Opening c roots A (.child b, .child n plants) B l x r before h after)
    (hlength : A.length = l.length) (hp : Parts roots (A ++ (.child b, .child n plants) :: B) (l ++ x :: r)) :
    ∃ front q behind, Plant.Row (seated i roots (A ++ (.child b, .child n plants) :: B) (l ++ x :: r)).plants
      (front ++ (plants ++ x.plants) ++ q :: behind) ∧ q.id = n := by
  obtain ⟨q, hq, hplace, -⟩ := H.at_
  have hkind := (H.at_.of_child rfl).1
  have hs : Seats roots c.holes (A ++ (.child b, .child n plants) :: B) (l ++ x :: r) := by
    rw [H.holes]
    exact H.front.append (.cons H.at_ H.modest H.leaf H.behind)
  obtain ⟨front, q', behind, hrow, hid⟩ := Trimming.site_graftAll_put
    (t := added (A ++ (.child b, .child n plants) :: B) (l ++ x :: r)) hq fun ρ r' hρ hne hr' => by
      by_contra hcontent
      obtain ⟨new, hnew⟩ := Option.ne_none_iff_exists'.1 hcontent
      obtain ⟨h', hh', e', -, htext, ⟨q', hq', hplace', -⟩, -, he'⟩ := hs.content_eq hnew
      have hid : r'.id = q'.id := by
        rw [← hplace', he']
        rfl
      have hpath := Plant.eq_of_follow hp.nodup_roots hr' hq' hid
      refine H.plain.open_ h' hh' h ?_ htext hkind (hpath ▸ hρ)
      rw [H.holes]
      exact List.mem_append_right _ (List.mem_cons_self ..)
  have hbefore : (added (A ++ (.child b, .child n plants) :: B) (l ++ x :: r)).before q.id
      = (added A l).before q.id ++ (plants ++ x.plants) := by
    have hbehind := H.before_behind hp.nodup_roots hkind
    have hself := before_trimmingWith (b := (.child b, .child n plants)) rfl x.plants
    rw [← hplace, added_append hlength, added_cons]
    show (added A l).before _ ++ (Trimming.before _ _ ++ (added B r).before _) = _
    rw [hself, hbehind, List.append_nil]
  rw [hbefore, ← List.append_assoc front] at hrow
  rw [plants_seated]
  exact ⟨_, q', behind, hrow, hid.trans hplace.symm⟩

end Opening

/-! ### One exhibit for another one -/

/-- An exhibit gives way to another one, and a graft that is about nothing else says what this does to the plants. -/
structure Recasts (f : Plant → List Plant) (x x' : Exhibit) : Prop where
  nonempty : x.nodes ≠ []
  about : ∀ q : Plant, q.id ∉ x.nodes → f q = [q]
  plants : Plant.graftAll f x.plants = x'.plants
  proper : x'.Proper

namespace Recasts

/-- A change of what is nested in a hole of a use is a change of the use. -/
theorem hole (hr : Recasts f x x') (hx : (seated i roots es (l ++ x :: r)).Proper)
    (hnd : (seated i roots es (l ++ x :: r)).nodes.Nodup) :
    Recasts f (seated i roots es (l ++ x :: r)) (seated i roots es (l ++ x' :: r)) := by
  obtain ⟨⟨c, hc, hp, htrees, hs⟩, hall⟩ := proper_seated.1 hx
  have hparts := parts_seated hnd
  obtain ⟨before, h, after, A, e, B, hholes, rfl, hA, hat, hmodest, hleaf, hB⟩ := hs.split
  have hkind : h.kind = .child := by
    by_contra hkind
    obtain ⟨v, rfl⟩ := hleaf hkind
    exact hr.nonempty rfl
  have hsub : x.nodes ⊆ nodesAll (l ++ x :: r) := nodes_subset_nodesAll (by simp)
  have hmem : x.nodes ⊆ (seated i roots (A ++ e :: B) (l ++ x :: r)).nodes := by
    rw [nodes_seated]
    exact fun m hm => List.mem_append_left _ (List.mem_append_right _ (hsub hm))
  have hnode : ∀ q : Plant, f q ≠ [q] → q.id ∈ x.nodes := fun q hq =>
    by_contra fun hout => hq (hr.about q hout)
  refine ⟨fun hnil => hr.nonempty (List.eq_nil_of_subset_nil (hnil ▸ hmem)),
    fun q hq => hr.about q fun hmq => hq (hmem hmq), ?_, proper_seated.2 ⟨⟨c, hc, hp, htrees, ?_⟩, ?_⟩⟩
  · have hA' : (added A l).map (Plant.graftAll f) = added A l :=
      Trimming.map_eq_self fun q hq => (hparts.avoids hall hA hB (.inr (.inr (hnode q hq)))).1
    have hB' : (added B r).map (Plant.graftAll f) = added B r :=
      Trimming.map_eq_self fun q hq => (hparts.avoids hall hA hB (.inr (.inr (hnode q hq)))).2
    have hself : e.2.trimming.map (Plant.graftAll f) = e.2.trimming := by
      obtain ⟨c, n, plants, rfl⟩ := hat.child hkind
      refine Trimming.map_eq_self fun q hq => Trimming.avoids_leading fun hm => ?_
      refine hparts.texts_nested q.id ?_ (hsub (hnode q hq))
      exact List.mem_flatMap.2 ⟨_, by simp, hmodest.mem_texts rfl hat hm⟩
    rw [plants_seated, plants_seated, Trimming.graftAll_put_of_inner fun q hq => hr.about q fun hm =>
      hparts.roots_nested _ hq (hsub hm), added_append hA.length, added_append hA.length, added_cons, added_cons,
      Trimming.map_join, Trimming.map_join, hA', hB', Spot.trimmingWith, Spot.trimmingWith, Trimming.map_join,
      hself, Trimming.map_leading, hr.plants]
  · rw [hholes]
    exact hA.append (.cons hat hmodest (fun hne => absurd hkind hne) hB)
  · rw [properAll_iff] at hall ⊢
    intro y hy
    rcases List.mem_append.1 hy with hy | hy
    · exact hall y (List.mem_append_left _ hy)
    · rcases List.mem_cons.1 hy with rfl | hy
      · exact hr.proper
      · exact hall y (List.mem_append_right _ (List.mem_cons_of_mem _ hy))

/-- A change of an item of a list is a change of the list. -/
theorem item (hr : Recasts f x x') (hx : (list (l ++ x :: r)).Proper)
    (hnd : (list (l ++ x :: r)).nodes.Nodup) : Recasts f (list (l ++ x :: r)) (list (l ++ x' :: r)) := by
  have hall : ProperAll (l ++ x :: r) := hx
  have hnd : (nodesAll (l ++ x :: r)).Nodup := hnd
  have hmem : x.nodes ⊆ (list (l ++ x :: r)).nodes := nodes_subset_nodesAll (by simp)
  have hself : ∀ ys : List Exhibit, (∀ y ∈ ys, y ∈ l ∨ y ∈ r) →
      Plant.graftAll f (plantsAll ys).flatten = (plantsAll ys).flatten := by
    intro ys hys
    refine Plant.graftAll_eq_self fun q hq => hr.about q fun hm => ?_
    have hproper : ProperAll ys := properAll_iff.2 fun y hy => properAll_iff.1 hall y <| by
      rcases hys y hy with hy | hy
      · exact List.mem_append_left _ hy
      · exact List.mem_append_right _ (List.mem_cons_of_mem _ hy)
    obtain ⟨y, hy, hmy⟩ := mem_nodesAll.1 (Proper.ids.2 ys hproper hq)
    exact not_mem_nodes_of_nested hnd hm (hys y hy) hmy
  refine ⟨fun hnil => hr.nonempty (List.eq_nil_of_subset_nil (hnil ▸ hmem)),
    fun q hq => hr.about q fun hmq => hq (hmem hmq), ?_, ?_⟩
  · rw [Exhibit.plants, Exhibit.plants, plantsAll_append, plantsAll_append, plantsAll, plantsAll,
      List.flatten_append, List.flatten_append, List.flatten_cons, List.flatten_cons, Plant.graftAll_append,
      Plant.graftAll_append, hself l fun y hy => .inl hy, hself r fun y hy => .inr hy, hr.plants]
  · show ProperAll (l ++ x' :: r)
    rw [properAll_iff] at hall ⊢
    intro y hy
    rcases List.mem_append.1 hy with hy | hy
    · exact hall y (List.mem_append_left _ hy)
    · rcases List.mem_cons.1 hy with rfl | hy
      · exact hr.proper
      · exact hall y (List.mem_append_right _ (List.mem_cons_of_mem _ hy))

end Recasts

/-- What is shown in a child hole is exchanged for something else. -/
theorem recasts_hole (hx : (seated i roots (A ++ (.child b, .child n plants) :: B) (l ++ z :: r)).Proper)
    (hnd : (seated i roots (A ++ (.child b, .child n plants) :: B) (l ++ z :: r)).nodes.Nodup)
    (hlength : A.length = l.length) (hmodest : Modest (.child b', .child n plants')) (hx' : x'.Proper) :
    Recasts (Plant.exchange n ((plants ++ z.plants).map Plant.id) (plants' ++ x'.plants))
      (seated i roots (A ++ (.child b, .child n plants) :: B) (l ++ z :: r))
      (seated i roots (A ++ (.child b', .child n plants') :: B) (l ++ x' :: r)) := by
  have hp := parts_seated hnd
  obtain ⟨c, before, h, after, H⟩ := hx.exists_hole hlength
  have hkind := (H.at_.of_child rfl).1
  have hn : n ∈ Plant.idsAll roots := H.at_.place_mem
  have hz : z.nodes ⊆ nodesAll (l ++ z :: r) := nodes_subset_nodesAll (by simp)
  have htexts : b.text ∈ ((A ++ (.child b, .child n plants) :: B).map Prod.fst).flatMap Binding.texts :=
    List.mem_flatMap.2 ⟨.child b, by simp, List.mem_singleton_self _⟩
  -- what is taken away is the text of the binding or nested in the hole
  have hold : ∀ m ∈ (plants ++ z.plants).map Plant.id, m = b.text ∨ m ∈ z.nodes := by
    intro m hm
    obtain ⟨q, hq, rfl⟩ := List.mem_map.1 hm
    rcases List.mem_append.1 hq with hq | hq
    · obtain ⟨data, rfl⟩ := H.modest q hq
      exact .inl rfl
    · exact .inr (Proper.ids.1 z (properAll_iff.1 H.nested z (by simp)) (Plant.id_mem_idsAll hq))
  have havoids : ∀ m, m ∈ Plant.idsAll roots ∨ m = b.text ∨ m ∈ z.nodes →
      ((added A l).join (added B r)).Avoids m := by
    intro m hm
    obtain ⟨hA, hB⟩ := hp.avoids H.nested H.front H.behind
      (hm.imp_right (Or.imp_left fun he => List.mem_singleton.2 he))
    exact hA.join hB
  have hplants : ∀ (b'' : ChildBinding) (ps : List Plant) (y : Exhibit),
      (seated i roots (A ++ (.child b'', .child n ps) :: B) (l ++ y :: r)).plants
        = Plant.graftAll (Plant.before n (ps ++ y.plants))
          (Plant.graftAll ((added A l).join (added B r)).put roots) := by
    intro b'' ps y
    have hbehind : (added B r).before n = [] := H.before_behind hp.nodup_roots hkind
    have hspot : (Spot.child n ps).trimmingWith y.plants = Trimming.leading n (ps ++ y.plants) := by
      rw [Spot.trimmingWith, Spot.trimming]
      exact Trimming.leading_join n ps y.plants
    rw [plants_seated, added_append hlength, added_cons, hspot, Trimming.graftAll_before_put
      (havoids n (.inl hn)), Trimming.join_assoc, Trimming.join_leading hbehind]
  refine ⟨fun hnil => ?_, fun q hq => ?_, ?_, ?_⟩
  · rw [nodes_seated] at hnil
    exact List.ne_nil_of_mem (List.mem_append_left _ (List.mem_append_left _ (List.mem_append_left _ hn))) hnil
  · rw [nodes_seated] at hq
    simp only [List.mem_append, not_or] at hq
    have hqn : q.id ≠ n := fun he => hq.1.1.1 (he ▸ hn)
    rw [Plant.exchange, if_neg, Plant.before, if_neg hqn]
    intro hmem
    rcases hold _ hmem with he | hm
    · exact hq.1.1.2 (he ▸ htexts)
    · exact hq.1.2 (hz hm)
  · rw [hplants b plants z, hplants b' plants' x']
    refine Plant.graftAll_exchange_before (fun q hq => List.mem_map_of_mem hq) fun m hm hmem => ?_
    have hor := hold m hmem
    rcases Trimming.mem_idsAll_put hm with hm | ⟨k, hm⟩ | ⟨k, new, hk, hm⟩
    · rcases hor with rfl | hz'
      · exact hp.roots_texts _ hm htexts
      · exact hp.roots_nested _ hm (hz hz')
    · exact (havoids m (.inr hor)).before k hm
    · exact (havoids m (.inr hor)).content k new hk hm
  · refine proper_seated.2 ⟨⟨c, H.coherent, H.plain, H.trees, ?_⟩, ?_⟩
    · rw [H.holes]
      exact H.front.append (.cons (at_of_child H.at_) hmodest (fun hne => absurd hkind hne) H.behind)
    · have hall := H.nested
      rw [properAll_iff] at hall ⊢
      intro y hy
      rcases List.mem_append.1 hy with hy | hy
      · exact hall y (List.mem_append_left _ hy)
      · rcases List.mem_cons.1 hy with rfl | hy
        · exact hx'
        · exact hall y (List.mem_append_right _ (List.mem_cons_of_mem _ hy))

/-! ### What an exhibit is framed by -/

/-- What is around an exhibit stays around another one in its place, and what is in a row in the exhibit is so in
the whole. -/
structure Framing (kept : List NodeId) (K : Exhibit → Exhibit) : Prop extends Around kept K where
  entries : ∃ outer, ∀ x, (K x).entries.Perm (x.entries ++ outer)
  nodes : ∃ outer, ∀ x, (K x).nodes.Perm (x.nodes ++ outer)
  recasts : ∀ {f : Plant → List Plant} {x x' : Exhibit}, (K x).Proper → (K x).nodes.Nodup →
    Recasts f x x' → Recasts f (K x) (K x')
  row : ∀ {x : Exhibit} {ρ : List Plant}, (K x).Proper → (K x).nodes.Nodup → Plant.Row x.plants ρ →
    ∃ front behind, Plant.Row (K x).plants (front ++ ρ ++ behind)

namespace Framing

theorem self (kept : List NodeId) : Framing kept fun x => x :=
  { Around.self kept with
    entries := ⟨[], fun x => by rw [List.append_nil]⟩
    nodes := ⟨[], fun x => by rw [List.append_nil]⟩
    recasts := fun _ _ h => h
    row := fun {_ ρ} _ _ h => ⟨[], [], by simpa using h⟩ }

theorem mono (h : Framing kept K) (hsub : kept ⊆ kept') : Framing kept' K :=
  { h with toAround := h.toAround.mono hsub }

/-- What is in a row in what is nested in a hole is so in the use. -/
theorem row_hole (hx : (seated i roots es (l ++ x :: r)).Proper)
    (hnd : (seated i roots es (l ++ x :: r)).nodes.Nodup) {ρ : List Plant} (hrow : Plant.Row x.plants ρ) :
    ∃ front behind, Plant.Row (seated i roots es (l ++ x :: r)).plants (front ++ ρ ++ behind) := by
  obtain ⟨⟨c, -, -, -, hs⟩, -⟩ := proper_seated.1 hx
  obtain ⟨before, h, after, A, e, B, -, rfl, hA, -⟩ := hs.split
  obtain ⟨c, before, h, after, H⟩ := hx.exists_hole hA.length
  by_cases hkind : h.kind = .child
  · obtain ⟨b, n, plants, rfl⟩ := H.at_.child hkind
    obtain ⟨front, q, behind, hsite, -⟩ := H.exists_site (i := i) hA.length (parts_seated hnd)
    cases hrow with
    | self => exact ⟨front ++ plants, q :: behind, by simpa using hsite⟩
    | inside hmem hrow =>
      refine ⟨[], [], ?_⟩
      simpa using hsite.trans (List.mem_append_left _ (List.mem_append_right _
        (List.mem_append_right _ hmem))) hrow
  · obtain ⟨v, rfl⟩ := H.leaf hkind
    cases hrow with
    | self => exact ⟨_, [], by simpa [Exhibit.plants] using Plant.Row.self _⟩
    | inside hmem _ => cases hmem

/-- Around what is nested in a hole of a use is the use with its other holes. -/
theorem hole (h : Framing kept K) (i : Instance) (roots : List Plant) {es : List (Binding × Spot)}
    {l r : List Exhibit} (hes : ∀ e ∈ es ++ entriesAll l ++ entriesAll r, e.1.held ⊆ kept) :
    Framing kept fun x => K (seated i roots es (l ++ x :: r)) :=
  { h.toAround.hole i roots hes with
    entries := by
      obtain ⟨outer, houter⟩ := h.entries
      refine ⟨es ++ entriesAll l ++ entriesAll r ++ outer, fun x => (houter _).trans ?_⟩
      rw [entries_seated, entriesAll_append, entriesAll]
      simpa using (List.perm_append_comm_assoc (es ++ entriesAll l) x.entries (entriesAll r ++ outer))
    nodes := by
      obtain ⟨outer, houter⟩ := h.nodes
      refine ⟨Plant.idsAll roots ++ (es.map Prod.fst).flatMap Binding.texts ++ nodesAll l ++ (nodesAll r
        ++ Plant.idsAll ((es.map Prod.snd).flatMap Spot.content) ++ outer), fun x => (houter _).trans ?_⟩
      rw [nodes_seated, nodesAll_append, nodesAll]
      simpa using (List.perm_append_comm_assoc (Plant.idsAll roots ++ (es.map Prod.fst).flatMap Binding.texts
        ++ nodesAll l) x.nodes (nodesAll r ++ (Plant.idsAll ((es.map Prod.snd).flatMap Spot.content) ++ outer)))
    recasts := fun {_ x _} hx hnd hr => h.recasts hx hnd (hr.hole (h.proper hx) (h.nodup hnd))
    row := fun {x ρ} hx hnd hrow => by
      obtain ⟨front, behind, hrow⟩ := row_hole (h.proper hx) (h.nodup hnd) hrow
      obtain ⟨front', behind', hrow⟩ := h.row hx hnd hrow
      exact ⟨front' ++ front, behind ++ behind', by simpa using hrow⟩ }

/-- Around an item of a list is the list with its other items. -/
theorem item (h : Framing kept K) {l r : List Exhibit}
    (hes : ∀ e ∈ entriesAll l ++ entriesAll r, e.1.held ⊆ kept) :
    Framing kept fun x => K (.list (l ++ x :: r)) :=
  { h.toAround.item hes with
    entries := by
      obtain ⟨outer, houter⟩ := h.entries
      refine ⟨entriesAll l ++ entriesAll r ++ outer, fun x => (houter _).trans ?_⟩
      rw [Exhibit.entries, entriesAll_append, entriesAll]
      simpa using (List.perm_append_comm_assoc (entriesAll l) x.entries (entriesAll r ++ outer))
    nodes := by
      obtain ⟨outer, houter⟩ := h.nodes
      refine ⟨nodesAll l ++ nodesAll r ++ outer, fun x => (houter _).trans ?_⟩
      rw [Exhibit.nodes, nodesAll_append, nodesAll]
      simpa using (List.perm_append_comm_assoc (nodesAll l) x.nodes (nodesAll r ++ outer))
    recasts := fun {_ x _} hx hnd hr => h.recasts hx hnd (hr.item (h.proper hx) (h.nodup hnd))
    row := fun {x ρ} hx hnd hrow => by
      have hrow' : ∃ front behind, Plant.Row (list (l ++ x :: r)).plants (front ++ ρ ++ behind) := by
        rw [Exhibit.plants, plantsAll_append, plantsAll, List.flatten_append, List.flatten_cons]
        cases hrow with
        | self => exact ⟨(plantsAll l).flatten, (plantsAll r).flatten, by simpa using Plant.Row.self _⟩
        | inside hmem hrow =>
          refine ⟨[], [], ?_⟩
          simpa using Plant.Row.inside (List.mem_append_right _ (List.mem_append_left _ hmem)) hrow
      obtain ⟨front, behind, hrow⟩ := hrow'
      obtain ⟨front', behind', hrow⟩ := h.row hx hnd hrow
      exact ⟨front' ++ front, behind ++ behind', by simpa using hrow⟩ }

end Framing

/-- What is around some exhibits that are next to each other. -/
structure FramingAll (kept : List NodeId) (K : List Exhibit → Exhibit) : Prop where
  part : ∀ l r kept', kept ⊆ kept' → (∀ e ∈ entriesAll l ++ entriesAll r, e.1.held ⊆ kept') →
    Framing kept' fun x => K (l ++ x :: r)
  held : ∀ {xs : List Exhibit} {e : Binding × Spot}, e ∈ (K xs).entries → e ∈ entriesAll xs ∨ e.1.held ⊆ kept

namespace FramingAll

variable {K : List Exhibit → Exhibit} {xs : List Exhibit}

theorem tail (h : FramingAll kept K) (x : Exhibit) (hsub : kept ⊆ kept') (hx : ∀ e ∈ x.entries, e.1.held ⊆ kept') :
    FramingAll kept' fun xs => K (x :: xs) where
  part l r kept'' hsub' hes := by
    refine h.part (x :: l) r kept'' (List.Subset.trans hsub hsub') fun e he => ?_
    rw [entriesAll, List.append_assoc, List.mem_append] at he
    exact he.elim (fun he => List.Subset.trans (hx e he) hsub') (hes e)
  held {xs e} he := by
    have hor := h.held he
    rw [entriesAll, List.mem_append, or_assoc] at hor
    exact hor.elim (fun he => .inr (hx e he)) (Or.imp_right fun he => List.Subset.trans he hsub)

theorem head (h : FramingAll kept K) (xs : List Exhibit) (hsub : kept ⊆ kept')
    (hxs : ∀ e ∈ entriesAll xs, e.1.held ⊆ kept') : Framing kept' fun x => K (x :: xs) :=
  h.part [] xs kept' hsub hxs

end FramingAll

theorem Framing.holes (h : Framing kept K) (i : Instance) (roots : List Plant) (hsub : kept ⊆ kept')
    (hes : ∀ e ∈ es, e.1.held ⊆ kept') : FramingAll kept' fun xs => K (seated i roots es xs) where
  part l r kept'' hsub' hlr := by
    refine (h.mono (List.Subset.trans hsub hsub')).hole i roots fun e he => ?_
    rw [List.append_assoc, List.mem_append] at he
    exact he.elim (fun he => List.Subset.trans (hes e he) hsub') (hlr e)
  held {xs e} he := by
    have hor := h.held he
    rw [entries_seated, List.mem_append, or_assoc] at hor
    exact hor.elim (fun he => .inr (hes e he)) (Or.imp_right fun he => List.Subset.trans he hsub)

theorem Framing.items (h : Framing kept K) : FramingAll kept fun xs => K (.list xs) where
  part _ _ _ hsub hlr := (h.mono hsub).item hlr
  held he := h.held he

end Exhibit

end LiveMarkup
