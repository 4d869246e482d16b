import LiveMarkup.Proofs.Rendering.Amending
/-!
# What is around an exhibit

An exhibit that is shown anew is mostly part of a larger one. `Exhibit.Around` says what can be relied on
while the larger one stays as it is but for this part: a change of the part is a change of the whole, what
is beside each other in the part is so in the whole, and the nodes of the part are found nowhere else. It
holds of the holes of a use (`Around.hole`) and of the items of a list (`Around.item`).
-/

namespace LiveMarkup

open Markup (Tree Tag)

namespace Plant

variable {m n : NodeId} {q : Plant} {ps qs row : List Plant}

theorem not_beside_nil : ¬ Beside m n [] := by
  rintro ⟨row, hrow, hm, -⟩
  cases hrow with
  | self => cases hm
  | inside mem _ => cases mem

/-- What is beside each other among some plants is so wherever these are siblings. -/
theorem Beside.mono (h : Beside m n ps) (hrow : Row qs row) (hsub : ps ⊆ row) : Beside m n qs := by
  obtain ⟨row', hrow', hm, hn⟩ := h
  cases hrow' with
  | self => exact ⟨row, hrow, List.map_subset _ hsub hm, List.map_subset _ hsub hn⟩
  | inside mem h => exact ⟨row', hrow.trans (hsub mem) h, hm, hn⟩

theorem Occurs.exists_mem (h : q.Occurs ps) : ∃ p ∈ ps, q.Occurs [p] := by
  rcases occurs_iff.1 h with hq | ⟨id, tag, children, hmem, h⟩
  · exact ⟨q, hq, occurs_of_mem (List.mem_singleton_self q)⟩
  · exact ⟨_, hmem, occurs_element.2 (.inr h)⟩

end Plant

namespace Exhibit

variable {f : Plant → List Plant} {m n k : NodeId} {i : Instance} {roots plants : List Plant}
  {e e' : Binding × Spot} {es A B : List (Binding × Spot)} {x x' y : Exhibit} {xs l r : List Exhibit}
  {c : Compiled} {before after : List Hole} {h : Hole} {q : Plant}

/-! ### One hole of a use -/

namespace Opening

/-- What is put in front of the placeholder of a child hole is beside it. -/
theorem exists_row (H : Opening c roots A e B l x r before h after) (hlength : A.length = l.length)
    (hp : Parts roots (A ++ e :: B) (l ++ x :: r)) (hkind : h.kind = .child) :
    ∃ row, Plant.Row (seated i roots (A ++ e :: B) (l ++ x :: r)).plants row ∧
      (e.2.trimmingWith x.plants).before e.2.place ⊆ row ∧ e.2.place ∈ row.map Plant.id := by
  obtain ⟨q, hq, hplace, -⟩ := H.at_
  have hs : Seats roots c.holes (A ++ e :: B) (l ++ x :: r) := by
    rw [H.holes]
    exact H.front.append (.cons H.at_ H.modest H.leaf H.behind)
  obtain ⟨row, hrow, hbefore, hid⟩ := Trimming.row_graftAll_put
    (t := added (A ++ e :: B) (l ++ x :: r)) hq fun ρ r' hρ hne hr' => by
      by_contra hcontent
      obtain ⟨new, hnew⟩ := Option.ne_none_iff_exists'.1 hcontent
      obtain ⟨h', hh', e', -, htext, ⟨q', hq', hplace', -⟩, -, he'⟩ := hs.content_eq hnew
      have hid : r'.id = q'.id := by
        rw [← hplace', he']
        rfl
      have hpath := Plant.eq_of_follow hp.nodup_roots hr' hq' hid
      refine H.plain.open_ h' hh' h ?_ htext hkind (hpath ▸ hρ)
      rw [H.holes]
      exact List.mem_append_right _ (List.mem_cons_self ..)
  rw [plants_seated, hplace]
  refine ⟨row, hrow, fun p hp => hbefore ?_, hid⟩
  rw [added_append hlength, added_cons]
  exact List.mem_append_right _ (List.mem_append_left _ hp)

end Opening

theorem before_trimmingWith {b : Binding × Spot} (hs : b.2 = .child n plants) (qs : List Plant) :
    (b.2.trimmingWith qs).before b.2.place = plants ++ qs := by
  rw [hs]
  show (if n = n then plants else []) ++ (if n = n then qs else []) = plants ++ qs
  rw [if_pos rfl, if_pos rfl]

/-- The text of a binding that is in use is beside its placeholder. -/
theorem beside_text {b : ChildBinding} {data : String}
    (hx : (seated i roots (A ++ (.child b, .child n [.text b.text data]) :: B) (l ++ x :: r)).Proper)
    (hnd : (seated i roots (A ++ (.child b, .child n [.text b.text data]) :: B)
      (l ++ x :: r)).nodes.Nodup)
    (hlength : A.length = l.length) : Plant.Beside b.text n
      (seated i roots (A ++ (.child b, .child n [.text b.text data]) :: B) (l ++ x :: r)).plants := by
  obtain ⟨c, before, h, after, H⟩ := hx.exists_hole hlength
  obtain ⟨row, hrow, hsub, hn⟩ := H.exists_row hlength (parts_seated hnd) (H.at_.of_child rfl).1
  refine ⟨row, hrow, ?_, hn⟩
  rw [before_trimmingWith rfl] at hsub
  exact List.mem_map_of_mem (hsub (List.mem_append_left _ (List.mem_singleton_self _)))

/-- A placeholder is in sight. -/
theorem beside_placeholder {b : ChildBinding}
    (hx : (seated i roots (A ++ (.child b, .child n plants) :: B) (l ++ x :: r)).Proper)
    (hnd : (seated i roots (A ++ (.child b, .child n plants) :: B) (l ++ x :: r)).nodes.Nodup)
    (hlength : A.length = l.length) : Plant.Beside n n
      (seated i roots (A ++ (.child b, .child n plants) :: B) (l ++ x :: r)).plants := by
  obtain ⟨c, before, h, after, H⟩ := hx.exists_hole hlength
  obtain ⟨row, hrow, -, hn⟩ := H.exists_row hlength (parts_seated hnd) (H.at_.of_child rfl).1
  exact ⟨row, hrow, hn, hn⟩

/-- What is nested in a hole is in sight. -/
theorem beside_hole (hx : (seated i roots es (l ++ x :: r)).Proper)
    (hnd : (seated i roots es (l ++ x :: r)).nodes.Nodup) (hb : Plant.Beside m n x.plants) :
    Plant.Beside m n (seated i roots es (l ++ x :: r)).plants := by
  obtain ⟨⟨c, -, -, -, hs⟩, -⟩ := proper_seated.1 hx
  obtain ⟨before, h, after, A, e, B, -, rfl, hA, -⟩ := hs.split
  obtain ⟨c, before, h, after, H⟩ := hx.exists_hole hA.length
  by_cases hkind : h.kind = .child
  · obtain ⟨row, hrow, hsub, -⟩ := H.exists_row hA.length (parts_seated hnd) hkind
    obtain ⟨b, k, plants, rfl⟩ := H.at_.child hkind
    rw [before_trimmingWith rfl] at hsub
    exact hb.mono hrow fun q hq => hsub (List.mem_append_right _ hq)
  · obtain ⟨v, rfl⟩ := H.leaf hkind
    exact absurd hb Plant.not_beside_nil

/-- What is found in a use and has been made for what is nested in it is found there. -/
theorem occurs_hole (hx : (seated i roots es (l ++ x :: r)).Proper)
    (hnd : (seated i roots es (l ++ x :: r)).nodes.Nodup)
    (hq : q.Occurs (seated i roots es (l ++ x :: r)).plants) (hid : q.id ∈ x.nodes) :
    q.Occurs x.plants := by
  have hp := parts_seated hnd
  obtain ⟨⟨c, -, -, -, hs⟩, hall⟩ := proper_seated.1 hx
  have hnested : q.id ∈ nodesAll (l ++ x :: r) := nodes_subset_nodesAll (by simp) hid
  rw [plants_seated] at hq
  rcases Trimming.occurs_graftAll_put hq with ⟨hroots, -⟩ | ⟨k, hq⟩ | ⟨k, new, hk, hq⟩
  · exact absurd hnested (hp.roots_nested _ hroots)
  · obtain ⟨p, hpmem, hq⟩ := hq.exists_mem
    obtain ⟨h, -, e, he, y, hy, -, hat, -, hmodest, ⟨plants, hplants, hpp⟩ | hpy⟩ := hs.mem_before hpmem
    · refine absurd hnested (hp.texts_nested _ (List.mem_flatMap.2 ⟨e.1, List.mem_map_of_mem he, ?_⟩))
      exact hmodest.mem_texts hplants hat (hq.mono (List.cons_subset.2 ⟨hpp, List.nil_subset _⟩)).id_mem
    · have hqy : q.Occurs y.plants := hq.mono (List.cons_subset.2 ⟨hpy, List.nil_subset _⟩)
      have hnodes := Proper.ids.1 y (properAll_iff.1 hall y hy) hqy.id_mem
      rcases List.mem_append.1 hy with hy | hy
      · exact absurd hnodes (not_mem_nodes_of_nested hp.nodup_nested hid (.inl hy))
      · rcases List.mem_cons.1 hy with rfl | hy
        · exact hqy
        · exact absurd hnodes (not_mem_nodes_of_nested hp.nodup_nested hid (.inr hy))
  · obtain ⟨h, -, e, he, -, -, -, hnew⟩ := hs.content_eq hk
    refine absurd ?_ (hp.nested_content _ hnested)
    obtain ⟨p, hp, hidp⟩ := Plant.mem_idsAll.1 hq.id_mem
    refine Plant.mem_idsAll.2 ⟨p, List.mem_flatMap.2 ⟨e.2, List.mem_map_of_mem he, ?_⟩, hidp⟩
    rw [hnew]
    exact hp

/-- The children of an element that has been given content are this content. -/
theorem children_of_text {last : Option Value} {content : List Plant}
    (hx : (seated i roots (A ++ (.text n last, .text n (some content)) :: B) (l ++ x :: r)).Proper)
    (hnd : (seated i roots (A ++ (.text n last, .text n (some content)) :: B)
      (l ++ x :: r)).nodes.Nodup)
    (hlength : A.length = l.length)
    (hq : q.Occurs (seated i roots (A ++ (.text n last, .text n (some content)) :: B)
      (l ++ x :: r)).plants)
    (hid : q.id = n) : q.children = content ∨ q.children = [] := by
  have hp := parts_seated hnd
  obtain ⟨c, before, h, after, H⟩ := hx.exists_hole hlength
  have hn : n ∈ Plant.idsAll roots := H.at_.place_mem
  have hfront : (added A l).content n = none := by
    by_contra hne
    obtain ⟨new, hnew⟩ := Option.ne_none_iff_exists'.1 hne
    obtain ⟨h', hh', e', -, htext, hat', -, he'⟩ := H.front.content_eq hnew
    obtain ⟨raw, hraw⟩ := H.attr_of_front hp.nodup_roots hh' hat' (by rw [he']; rfl)
    rw [htext] at hraw
    cases hraw
  have hcontent : (added (A ++ (.text n last, .text n (some content)) :: B) (l ++ x :: r)).content n
      = some content := by
    rw [added_append hlength, added_cons]
    simp [Trimming.join, hfront, Spot.trimmingWith, Spot.trimming, Trimming.filling]
  have hs : Seats roots c.holes (A ++ (.text n last, .text n (some content)) :: B) (l ++ x :: r) := by
    rw [H.holes]
    exact H.front.append (.cons H.at_ H.modest H.leaf H.behind)
  have havoids := hs.avoids (n := n) (fun y hy hny => hp.roots_nested n hn (nodes_subset_nodesAll hy
    (Proper.ids.1 y (properAll_iff.1 H.nested y hy) hny))) (hp.roots_texts n hn) (hp.roots_content n hn)
  rw [plants_seated] at hq
  rcases Trimming.occurs_graftAll_put hq with ⟨-, hchildren⟩ | ⟨k, hq⟩ | ⟨k, new, hk, hq⟩
  · exact hchildren content (hid ▸ hcontent)
  · exact absurd (hid ▸ hq.id_mem) (havoids.before k)
  · exact absurd (hid ▸ hq.id_mem) (havoids.content k new hk)

/-! ### An exhibit in a larger one -/

/-- Two exhibits come to the same, for what they show is not by themselves: values in place of others. -/
structure Matches (x x' : Exhibit) : Prop where
  plants : x'.plants = x.plants
  entries : x'.entries = x.entries
  nodes : x'.nodes = x.nodes
  proper : x.Proper → x'.Proper
  leaf : (∃ v, x = .leaf v) → ∃ v, x' = .leaf v

/-- What is around an exhibit in a larger one, with the nodes that have to be held for it. -/
structure Around (kept : List NodeId) (K : Exhibit → Exhibit) : Prop where
  proper : ∀ {x : Exhibit}, (K x).Proper → x.Proper
  nodup : ∀ {x : Exhibit}, (K x).nodes.Nodup → x.nodes.Nodup
  amends : ∀ {f : Plant → List Plant} {m : NodeId} {e e' : Binding × Spot} {x x' : Exhibit},
    (K x).Proper → (K x).nodes.Nodup → Amends f m e e' x x' → Amends f m e e' (K x) (K x')
  matches_ : ∀ {x x' : Exhibit}, Matches x x' → Matches (K x) (K x')
  beside : ∀ {m n : NodeId} {x : Exhibit}, (K x).Proper → (K x).nodes.Nodup →
    Plant.Beside m n x.plants → Plant.Beside m n (K x).plants
  occurs : ∀ {q : Plant} {x : Exhibit}, (K x).Proper → (K x).nodes.Nodup → q.Occurs (K x).plants →
    q.id ∈ x.nodes → q.Occurs x.plants
  held : ∀ {x : Exhibit} {e : Binding × Spot}, e ∈ (K x).entries → e ∈ x.entries ∨ e.1.held ⊆ kept

namespace Around

variable {K : Exhibit → Exhibit} {kept kept' : List NodeId}

theorem self (kept : List NodeId) : Around kept fun x => x :=
  ⟨id, id, fun _ _ h => h, id, fun _ _ h => h, fun _ _ h _ => h, .inl⟩

theorem mono (h : Around kept K) (hsub : kept ⊆ kept') : Around kept' K :=
  { h with held := fun he => (h.held he).imp_right fun hk => List.Subset.trans hk hsub }

/-- Around what is nested in a hole of a use is the use with its other holes. -/
theorem hole (h : Around kept K) (i : Instance) (roots : List Plant) {es : List (Binding × Spot)}
    {l r : List Exhibit} (hes : ∀ e ∈ es ++ entriesAll l ++ entriesAll r, e.1.held ⊆ kept) :
    Around kept fun x => K (seated i roots es (l ++ x :: r)) where
  proper hx := by
    obtain ⟨-, hall⟩ := proper_seated.1 (h.proper hx)
    exact properAll_iff.1 hall _ (by simp)
  nodup hnd := by
    have hp := (parts_seated (h.nodup hnd)).nodup_nested
    rw [nodesAll_append, nodesAll, List.nodup_append, List.nodup_append] at hp
    exact hp.2.1.1
  amends hx hnd ha := h.amends hx hnd (ha.hole (h.proper hx) (h.nodup hnd))
  matches_ {x x'} hm := h.matches_ <| by
    refine ⟨?_, ?_, ?_, fun hx => ?_, fun hv => ?_⟩
    · rw [plants_seated, plants_seated, added, added, plantsAll_append, plantsAll_append, plantsAll,
        plantsAll, hm.plants]
    · rw [entries_seated, entries_seated, entriesAll_append, entriesAll_append, entriesAll, entriesAll,
        hm.entries]
    · rw [nodes_seated, nodes_seated, nodesAll_append, nodesAll_append, nodesAll, nodesAll, hm.nodes]
    · obtain ⟨⟨c, hc, hp, htrees, hs⟩, hall⟩ := proper_seated.1 hx
      obtain ⟨before, h, after, A, e, B, hholes, rfl, hA, hat, hmodest, hleaf, hB⟩ := hs.split
      refine proper_seated.2 ⟨⟨c, hc, hp, htrees, ?_⟩, ?_⟩
      · rw [hholes]
        exact hA.append (.cons hat hmodest (fun hne => hm.leaf (hleaf hne)) hB)
      · rw [properAll_iff] at hall ⊢
        simp only [List.mem_append, List.mem_cons] at hall ⊢
        rintro y (hy | rfl | hy)
        · exact hall y (.inl hy)
        · exact hm.proper (hall x (.inr (.inl rfl)))
        · exact hall y (.inr (.inr hy))
    · obtain ⟨v, hv⟩ := hv
      cases hv
  beside hx hnd hb := h.beside hx hnd (beside_hole (h.proper hx) (h.nodup hnd) hb)
  occurs {q x} hx hnd hq hid := by
    refine occurs_hole (h.proper hx) (h.nodup hnd) (h.occurs hx hnd hq ?_) hid
    have hmem : x ∈ l ++ x :: r := by simp
    have hnested := nodes_subset_nodesAll hmem hid
    rw [nodes_seated]
    simp [hnested]
  held {x e} he := by
    refine (h.held he).elim (fun he => ?_) .inr
    rw [entries_seated, entriesAll_append, entriesAll] at he
    simp only [List.mem_append] at he hes
    rcases he with he | he | he | he
    · exact .inr (hes e (.inl (.inl he)))
    · exact .inr (hes e (.inl (.inr he)))
    · exact .inl he
    · exact .inr (hes e (.inr he))

/-- Around an item of a list is the list with its other items. -/
theorem item (h : Around kept K) {l r : List Exhibit}
    (hes : ∀ e ∈ entriesAll l ++ entriesAll r, e.1.held ⊆ kept) :
    Around kept fun x => K (.list (l ++ x :: r)) where
  proper hx := by
    have hall : ProperAll (l ++ _ :: r) := h.proper hx
    exact properAll_iff.1 hall _ (by simp)
  nodup hnd := by
    have hp : (nodesAll (l ++ _ :: r)).Nodup := h.nodup hnd
    rw [nodesAll_append, nodesAll, List.nodup_append, List.nodup_append] at hp
    exact hp.2.1.1
  amends hx hnd ha := h.amends hx hnd (ha.item (h.proper hx) (h.nodup hnd))
  matches_ {x x'} hm := h.matches_ <| by
    refine ⟨?_, ?_, ?_, fun hx => ?_, fun hv => ?_⟩
    · rw [plants, plants, plantsAll_append, plantsAll_append, plantsAll, plantsAll, hm.plants]
    · rw [entries, entries, entriesAll_append, entriesAll_append, entriesAll, entriesAll, hm.entries]
    · rw [nodes, nodes, nodesAll_append, nodesAll_append, nodesAll, nodesAll, hm.nodes]
    · have hall : ProperAll (l ++ x :: r) := hx
      show ProperAll (l ++ x' :: r)
      rw [properAll_iff] at hall ⊢
      simp only [List.mem_append, List.mem_cons] at hall ⊢
      rintro y (hy | rfl | hy)
      · exact hall y (.inl hy)
      · exact hm.proper (hall x (.inr (.inl rfl)))
      · exact hall y (.inr (.inr hy))
    · obtain ⟨v, hv⟩ := hv
      cases hv
  beside {m n x} hx hnd hb := by
    refine h.beside hx hnd (hb.mono (.self _) ?_)
    rw [plants, plantsAll_append, plantsAll, List.flatten_append, List.flatten_cons]
    exact fun q hq => List.mem_append_right _ (List.mem_append_left _ hq)
  occurs {q x} hx hnd hq hid := by
    have hall : ProperAll (l ++ x :: r) := h.proper hx
    have hnested : (nodesAll (l ++ x :: r)).Nodup := h.nodup hnd
    have hmem : x ∈ l ++ x :: r := by simp
    have hq := h.occurs hx hnd hq (nodes_subset_nodesAll hmem hid)
    rw [plants, plantsAll_append, plantsAll, List.flatten_append, List.flatten_cons,
      Plant.occurs_append, Plant.occurs_append] at hq
    have hother : ∀ ys, (∀ y ∈ ys, y ∈ l ∨ y ∈ r) → ¬ q.Occurs (plantsAll ys).flatten := by
      intro ys hys hq
      have hproper : ProperAll ys := properAll_iff.2 fun y hy => by
        refine properAll_iff.1 hall y ?_
        rcases hys y hy with hy | hy
        · exact List.mem_append_left _ hy
        · exact List.mem_append_right _ (List.mem_cons_of_mem _ hy)
      obtain ⟨y, hy, hidy⟩ := mem_nodesAll.1 (Proper.ids.2 ys hproper hq.id_mem)
      exact not_mem_nodes_of_nested hnested hid (hys y hy) hidy
    rcases hq with hq | hq | hq
    · exact absurd hq (hother l fun y hy => .inl hy)
    · exact hq
    · exact absurd hq (hother r fun y hy => .inr hy)
  held {x e} he := by
    refine (h.held he).elim (fun he => ?_) .inr
    rw [entries, entriesAll_append, entriesAll] at he
    simp only [List.mem_append] at he hes
    rcases he with he | he | he
    · exact .inr (hes e (.inl he))
    · exact .inl he
    · exact .inr (hes e (.inr he))

end Around

end Exhibit

end LiveMarkup
