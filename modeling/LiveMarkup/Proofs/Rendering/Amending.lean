import LiveMarkup.Proofs.Rendering.Seating
/-!
# Exchanging one entry of an exhibit

When a binding shows something else, one entry of an exhibit is exchanged for another one, and the nodes
that the exhibit comes to change by a graft about one node (`Exhibit.Amends`): a text says something else
(`amends_say`), is put in front of its placeholder (`amends_insert`) or taken away (`amends_withdraw`), an
attribute gets another value (`amends_value`), or an element other content (`amends_refill`). Such a change
inside an exhibit that is nested in another one is a change of that one as well (`Amends.hole`,
`Amends.item`).
-/

namespace LiveMarkup

open Markup (Tree Tag)

namespace Trimming

variable {s t : Trimming NodeId Plant} {f : Plant → List Plant} {m k : NodeId} {ps qs : List Plant}

theorem map_join : (s.join t).map (Plant.graftAll f)
    = (s.map (Plant.graftAll f)).join (t.map (Plant.graftAll f)) := by
  rw [join, join, map, map, map]
  refine Trimming.mk.injEq .. ▸ ⟨funext fun j => Plant.graftAll_append .., rfl, funext fun j => ?_⟩
  dsimp only
  cases s.content j <;> rfl

theorem map_leading : (leading k ps).map (Plant.graftAll f) = leading k (Plant.graftAll f ps) := by
  rw [map, leading, leading]
  refine Trimming.mk.injEq .. ▸ ⟨funext fun j => ?_, rfl, rfl⟩
  dsimp only
  by_cases hj : j = k
  · rw [if_pos hj, if_pos hj]
  · rw [if_neg hj, if_neg hj, Plant.graftAll_nil]

/-- A graft about a node that is in nothing that a trimming adds leaves the trimming as it is. -/
theorem Avoids.map_eq (ht : t.Avoids m) (hf : ∀ q : Plant, q.id ≠ m → f q = [q]) :
    t.map (Plant.graftAll f) = t := by
  obtain ⟨hbefore, hcontent⟩ := ht.graftAll_eq hf
  rw [map]
  refine Trimming.mk.injEq .. ▸ ⟨funext hbefore, rfl, funext fun j => ?_⟩
  cases hj : t.content j with
  | none => rfl
  | some qs => exact congrArg some (hcontent j qs hj)

theorem Alike.leading (h : Plant.AlikeAll ps qs) :
    (leading k ps : Trimming NodeId Plant).Alike (leading k qs) where
  before j := by
    rw [Trimming.leading, Trimming.leading]
    dsimp only
    split
    · exact h
    · exact .refl _
  attributes _ := .refl _
  content _ := .none

/-- What is put in front of a node can come behind or before the rest, if nothing else is there. -/
theorem join_leading (ht : t.before k = []) : t.join (.leading k ps) = (Trimming.leading k ps).join t := by
  rw [join, join, Trimming.leading, none]
  refine Trimming.mk.injEq .. ▸ ⟨funext fun j => ?_, funext fun j => ?_, funext fun j => ?_⟩
  · dsimp only
    by_cases hj : j = k
    · rw [hj, ht, List.nil_append, List.append_nil]
    · rw [if_neg hj, List.nil_append, List.append_nil]
  · rw [List.append_nil, List.nil_append]
  · exact Option.or_none.trans Option.none_or.symm

end Trimming

namespace Exhibit

variable {f : Plant → List Plant} {m n k : NodeId} {i : Instance} {roots plants new : List Plant}
  {e e' : Binding × Spot} {es A B : List (Binding × Spot)} {x x' y : Exhibit} {xs l r : List Exhibit}
  {holes : List Hole} {h : Hole}

/-- One entry of an exhibit is exchanged, and a graft about one node says what this does to the plants of
the exhibit. -/
structure Amends (f : Plant → List Plant) (m : NodeId) (e e' : Binding × Spot) (x x' : Exhibit) :
    Prop where
  about : ∀ q : Plant, q.id ≠ m → f q = [q]
  mem : m ∈ x.nodes
  plants : Plant.AlikeAll (Plant.graftAll f x.plants) x'.plants
  entries : ∃ A B, x.entries = A ++ e :: B ∧ x'.entries = A ++ e' :: B
  nodes : ∃ kept, x.nodes.Perm (kept ++ Plant.idsAll e.2.content) ∧
    x'.nodes.Perm (kept ++ Plant.idsAll e'.2.content)
  proper : x'.Proper

/-! ### Changes of what is nested -/

/-- A node that is nested in one hole is nowhere else. -/
theorem not_mem_nodes_of_nested (hnd : (nodesAll (l ++ x :: r)).Nodup) (hm : m ∈ x.nodes)
    (hy : y ∈ l ∨ y ∈ r) : m ∉ y.nodes := by
  rw [nodesAll_append, nodesAll, List.nodup_append, List.nodup_append] at hnd
  intro hmy
  rcases hy with hy | hy
  · exact hnd.2.2 m (nodes_subset_nodesAll hy hmy) m (List.mem_append_left _ hm) rfl
  · exact hnd.2.1.2.2 m hm m (nodes_subset_nodesAll hy hmy) rfl

/-- A change that does not concern the nodes of the template. -/
theorem alike_inner (hlength : A.length = l.length) (hA : (added A l).Avoids m)
    (hB : (added B r).Avoids m) (hroots : m ∉ Plant.idsAll roots)
    (hf : ∀ q : Plant, q.id ≠ m → f q = [q])
    (h : ((e.2.trimmingWith x.plants).map (Plant.graftAll f)).Alike (e'.2.trimmingWith x'.plants)) :
    Plant.AlikeAll (Plant.graftAll f (seated i roots (A ++ e :: B) (l ++ x :: r)).plants)
      (seated i roots (A ++ e' :: B) (l ++ x' :: r)).plants := by
  rw [plants_seated, plants_seated, Trimming.graftAll_put_of_inner fun q hq => hf q fun he =>
    hroots (he ▸ hq)]
  refine Trimming.Alike.graftAll_put ?_ roots
  rw [added_append hlength, added_append hlength, added_cons, added_cons, Trimming.map_join,
    Trimming.map_join, hA.map_eq hf, hB.map_eq hf]
  exact (Trimming.Alike.refl _).join (h.join (.refl _))

/-- What the holes of a use other than one add has none of the nodes of that hole, nor of the template. -/
theorem Parts.avoids (hp : Parts roots (A ++ e :: B) (l ++ x :: r)) (hall : ProperAll (l ++ x :: r))
    {before after : List Hole} (hA : Seats roots before A l) (hB : Seats roots after B r)
    (hm : m ∈ Plant.idsAll roots ∨ m ∈ e.1.texts ∨ m ∈ x.nodes) :
    (added A l).Avoids m ∧ (added B r).Avoids m := by
  have hx : x.nodes ⊆ nodesAll (l ++ x :: r) := nodes_subset_nodesAll (by simp)
  have he : e.1.texts ⊆ ((A ++ e :: B).map Prod.fst).flatMap Binding.texts := fun n hn =>
    List.mem_flatMap.2 ⟨e.1, by simp, hn⟩
  have htexts : m ∉ (A.map Prod.fst).flatMap Binding.texts ∧
      m ∉ (B.map Prod.fst).flatMap Binding.texts := by
    have hor : m ∉ ((A ++ e :: B).map Prod.fst).flatMap Binding.texts ∨ m ∈ e.1.texts := by
      rcases hm with hm | hm | hm
      · exact .inl (hp.roots_texts m hm)
      · exact .inr hm
      · exact .inl fun ht => hp.texts_nested m ht (hx hm)
    have hnd := hp.nodup_texts
    rw [List.map_append, List.map_cons, List.flatMap_append, List.flatMap_cons] at hnd hor
    rw [List.nodup_append, List.nodup_append] at hnd
    rcases hor with hout | hin
    · simp only [List.mem_append, not_or] at hout
      exact ⟨hout.1, hout.2.2⟩
    · exact ⟨fun h => hnd.2.2 m h m (List.mem_append_left _ hin) rfl, fun h => hnd.2.1.2.2 m hin m h rfl⟩
  have hcontent : m ∉ Plant.idsAll ((A.map Prod.snd).flatMap Spot.content) ∧
      m ∉ Plant.idsAll ((B.map Prod.snd).flatMap Spot.content) := by
    have hout : m ∉ Plant.idsAll (((A ++ e :: B).map Prod.snd).flatMap Spot.content) := by
      rcases hm with hm | hm | hm
      · exact hp.roots_content m hm
      · exact hp.texts_content m (he hm)
      · exact hp.nested_content m (hx hm)
    rw [List.map_append, List.map_cons, List.flatMap_append, List.flatMap_cons, Plant.idsAll_append,
      Plant.idsAll_append] at hout
    simp only [List.mem_append, not_or] at hout
    exact ⟨hout.1, hout.2.2⟩
  have hnested : ∀ y, y ∈ l ∨ y ∈ r → m ∉ Plant.idsAll y.plants := by
    intro y hy hmy
    have hmem : y ∈ l ++ x :: r := by
      rcases hy with hy | hy
      · exact List.mem_append_left _ hy
      · exact List.mem_append_right _ (List.mem_cons_of_mem _ hy)
    have hmy := Proper.ids.1 y (properAll_iff.1 hall y hmem) hmy
    rcases hm with hm | hm | hm
    · exact hp.roots_nested m hm (nodes_subset_nodesAll hmem hmy)
    · exact hp.texts_nested m (he hm) (nodes_subset_nodesAll hmem hmy)
    · exact not_mem_nodes_of_nested hp.nodup_nested hm hy hmy
  exact ⟨hA.avoids (fun y hy => hnested y (.inl hy)) htexts.1 hcontent.1,
    hB.avoids (fun y hy => hnested y (.inr hy)) htexts.2 hcontent.2⟩

/-- A change of what is nested in a hole of a use is a change of the use. -/
theorem Amends.hole (ha : Amends f m e e' x x') (hx : (seated i roots es (l ++ x :: r)).Proper)
    (hnd : (seated i roots es (l ++ x :: r)).nodes.Nodup) :
    Amends f m e e' (seated i roots es (l ++ x :: r)) (seated i roots es (l ++ x' :: r)) := by
  obtain ⟨⟨c, hc, hp, htrees, hs⟩, hall⟩ := proper_seated.1 hx
  have hparts := parts_seated hnd
  obtain ⟨before, h, after, A, e₀, B, hholes, rfl, hA, hat, hmodest, hleaf, hB⟩ := hs.split
  have hkind : h.kind = .child := by
    by_contra hkind
    obtain ⟨v, rfl⟩ := hleaf hkind
    cases ha.mem
  have hmem : m ∈ nodesAll (l ++ x :: r) := nodes_subset_nodesAll (by simp) ha.mem
  obtain ⟨hA', hB'⟩ := hparts.avoids hall hA hB (.inr (.inr ha.mem))
  refine ⟨ha.about, ?_, ?_, ?_, ?_, proper_seated.2 ⟨⟨c, hc, hp, htrees, ?_⟩, ?_⟩⟩
  · rw [nodes_seated]
    simp [hmem]
  · refine alike_inner hA.length hA' hB' (fun hm => hparts.roots_nested m hm hmem) ha.about ?_
    have hself : e₀.2.trimming.Avoids m := by
      obtain ⟨c, n, plants, rfl⟩ := hat.child hkind
      refine Trimming.avoids_leading fun hm => hparts.texts_nested m ?_ hmem
      exact List.mem_flatMap.2 ⟨_, by simp, hmodest.mem_texts rfl hat hm⟩
    rw [Spot.trimmingWith, Spot.trimmingWith, Trimming.map_join, hself.map_eq ha.about,
      Trimming.map_leading]
    exact (Trimming.Alike.refl _).join (.leading ha.plants)
  · obtain ⟨A', B', hentries, hentries'⟩ := ha.entries
    refine ⟨A ++ e₀ :: B ++ entriesAll l ++ A', B' ++ entriesAll r, ?_, ?_⟩ <;>
    · rw [entries_seated, entriesAll_append, entriesAll]
      simp [hentries, hentries']
  · obtain ⟨kept, hperm, hperm'⟩ := ha.nodes
    refine ⟨Plant.idsAll roots ++ (((A ++ e₀ :: B).map Prod.fst).flatMap Binding.texts) ++
      (nodesAll l ++ (kept ++ nodesAll r)) ++
      Plant.idsAll (((A ++ e₀ :: B).map Prod.snd).flatMap Spot.content), ?_, ?_⟩ <;>
    · rw [nodes_seated, nodesAll_append, nodesAll]
      generalize Plant.idsAll roots ++ (((A ++ e₀ :: B).map Prod.fst).flatMap Binding.texts) = a
      generalize Plant.idsAll (((A ++ e₀ :: B).map Prod.snd).flatMap Spot.content) = b
      rw [List.perm_iff_count] at hperm hperm' ⊢
      intro k
      have h₁ := hperm k
      have h₂ := hperm' k
      simp only [List.count_append] at h₁ h₂ ⊢
      omega
  · rw [hholes]
    exact hA.append (.cons hat hmodest (fun hne => absurd hkind hne) hB)
  · rw [properAll_iff] at hall ⊢
    intro y hy
    rcases List.mem_append.1 hy with hy | hy
    · exact hall y (List.mem_append_left _ hy)
    · rcases List.mem_cons.1 hy with rfl | hy
      · exact ha.proper
      · exact hall y (List.mem_append_right _ (List.mem_cons_of_mem _ hy))

/-- A change of an item of a list is a change of the list. -/
theorem Amends.item (ha : Amends f m e e' x x') (hx : (list (l ++ x :: r)).Proper)
    (hnd : (list (l ++ x :: r)).nodes.Nodup) :
    Amends f m e e' (list (l ++ x :: r)) (list (l ++ x' :: r)) := by
  have hall : ProperAll (l ++ x :: r) := hx
  have hnd : (nodesAll (l ++ x :: r)).Nodup := hnd
  have hself : ∀ ys : List Exhibit, (∀ y ∈ ys, y ∈ l ∨ y ∈ r) →
      Plant.graftAll f (plantsAll ys).flatten = (plantsAll ys).flatten := by
    intro ys hys
    refine Plant.graftAll_eq_self fun q hq => ha.about q ?_
    rintro rfl
    have hproper : ProperAll ys := properAll_iff.2 fun y hy => properAll_iff.1 hall y <| by
      rcases hys y hy with hy | hy
      · exact List.mem_append_left _ hy
      · exact List.mem_append_right _ (List.mem_cons_of_mem _ hy)
    obtain ⟨y, hy, hmy⟩ := mem_nodesAll.1 (Proper.ids.2 ys hproper hq)
    exact not_mem_nodes_of_nested hnd ha.mem (hys y hy) hmy
  refine ⟨ha.about, ?_, ?_, ?_, ?_, ?_⟩
  · rw [Exhibit.nodes]
    exact nodes_subset_nodesAll (by simp) ha.mem
  · rw [Exhibit.plants, Exhibit.plants, plantsAll_append, plantsAll_append, plantsAll, plantsAll, List.flatten_append,
      List.flatten_append, List.flatten_cons, List.flatten_cons, Plant.graftAll_append,
      Plant.graftAll_append, hself l fun y hy => .inl hy, hself r fun y hy => .inr hy]
    exact (Plant.AlikeAll.refl _).append (ha.plants.append (.refl _))
  · obtain ⟨A', B', hentries, hentries'⟩ := ha.entries
    refine ⟨entriesAll l ++ A', B' ++ entriesAll r, ?_, ?_⟩ <;>
    · rw [Exhibit.entries, entriesAll_append, entriesAll]
      simp [hentries, hentries']
  · obtain ⟨kept, hperm, hperm'⟩ := ha.nodes
    refine ⟨nodesAll l ++ (kept ++ nodesAll r), ?_, ?_⟩ <;>
    · rw [Exhibit.nodes, nodesAll_append, nodesAll]
      rw [List.perm_iff_count] at hperm hperm' ⊢
      intro k
      have h₁ := hperm k
      have h₂ := hperm' k
      simp only [List.count_append] at h₁ h₂ ⊢
      omega
  · show ProperAll (l ++ x' :: r)
    rw [properAll_iff] at hall ⊢
    intro y hy
    rcases List.mem_append.1 hy with hy | hy
    · exact hall y (List.mem_append_left _ hy)
    · rcases List.mem_cons.1 hy with rfl | hy
      · exact ha.proper
      · exact hall y (List.mem_append_right _ (List.mem_cons_of_mem _ hy))

/-! ### Changes of one entry -/

/-- One hole of a use, with what is known of it and of those before and behind it. -/
structure Opening (c : Compiled) (roots : List Plant) (A : List (Binding × Spot)) (e : Binding × Spot)
    (B : List (Binding × Spot)) (l : List Exhibit) (x : Exhibit) (r : List Exhibit)
    (before : List Hole) (h : Hole) (after : List Hole) : Prop where
  coherent : c.Coherent
  plain : c.Plain
  trees : Plant.trees roots = c.content
  holes : c.holes = before ++ h :: after
  front : Seats roots before A l
  at_ : h.At roots e
  modest : Modest e
  leaf : h.kind ≠ .child → ∃ v, x = .leaf v
  behind : Seats roots after B r
  nested : ProperAll (l ++ x :: r)

theorem Proper.exists_hole (hx : (seated i roots (A ++ e :: B) (l ++ x :: r)).Proper)
    (hlength : A.length = l.length) : ∃ c before h after, Opening c roots A e B l x r before h after := by
  obtain ⟨⟨c, hc, hp, htrees, hs⟩, hall⟩ := proper_seated.1 hx
  obtain ⟨before, h, after, A', e', B', hholes, hes, hA, hat, hmodest, hleaf, hB⟩ := hs.split
  obtain ⟨rfl, htail⟩ := List.append_inj hes (hlength.trans hA.length.symm)
  obtain ⟨rfl, rfl⟩ := List.cons.inj htail
  exact ⟨c, before, h, after, hc, hp, htrees, hholes, hA, hat, hmodest, hleaf, hB, hall⟩

namespace Opening

variable {c : Compiled} {before after : List Hole} {h h' : Hole}

/-- A hole in front that is at the same place is that of an attribute. -/
theorem attr_of_front (H : Opening c roots A e B l x r before h after) (hnd : (Plant.idsAll roots).Nodup)
    (hh : h' ∈ before) (hat : h'.At roots e') (hplace : e'.2.place = e.2.place) :
    ∃ raw, h'.kind = .attr raw := by
  have hapart := H.coherent.apart
  rw [H.holes, List.pairwise_append] at hapart
  exact hapart.2.2 h' hh h (List.mem_cons_self ..) (hat.path_eq hnd H.at_ hplace)

/-- Unless it is that of an attribute, a hole is at another place than those behind it. -/
theorem attr_of_behind (H : Opening c roots A e B l x r before h after) (hnd : (Plant.idsAll roots).Nodup)
    (hh : h' ∈ after) (hat : h'.At roots e') (hplace : e'.2.place = e.2.place) :
    ∃ raw, h.kind = .attr raw := by
  have hapart := H.coherent.apart
  rw [H.holes, List.pairwise_append, List.pairwise_cons] at hapart
  exact hapart.2.1.1 h' hh (H.at_.path_eq hnd hat hplace.symm)

end Opening

/-- An entry of a use is exchanged for one of the same hole. -/
theorem amends_entry (hx : (seated i roots (A ++ e :: B) (l ++ x :: r)).Proper)
    (hlength : A.length = l.length) (hf : ∀ q : Plant, q.id ≠ m → f q = [q])
    (hm : m ∈ (seated i roots (A ++ e :: B) (l ++ x :: r)).nodes)
    (hplants : Plant.AlikeAll (Plant.graftAll f (seated i roots (A ++ e :: B) (l ++ x :: r)).plants)
      (seated i roots (A ++ e' :: B) (l ++ x :: r)).plants)
    (hat : ∀ h : Hole, h.At roots e → h.At roots e') (hmodest : Modest e')
    (htexts : e'.1.texts = e.1.texts) :
    Amends f m e e' (seated i roots (A ++ e :: B) (l ++ x :: r))
      (seated i roots (A ++ e' :: B) (l ++ x :: r)) := by
  obtain ⟨c, before, h, after, H⟩ := hx.exists_hole hlength
  refine ⟨hf, hm, hplants, ⟨A, B ++ entriesAll (l ++ x :: r), ?_, ?_⟩, ?_, proper_seated.2
    ⟨⟨c, H.coherent, H.plain, H.trees, ?_⟩, H.nested⟩⟩
  · rw [entries_seated, List.append_assoc, List.cons_append]
  · rw [entries_seated, List.append_assoc, List.cons_append]
  · refine ⟨Plant.idsAll roots ++ ((A ++ e :: B).map Prod.fst).flatMap Binding.texts ++
      nodesAll (l ++ x :: r) ++ (Plant.idsAll ((A.map Prod.snd).flatMap Spot.content) ++
      Plant.idsAll ((B.map Prod.snd).flatMap Spot.content)), ?_, ?_⟩ <;>
    · rw [nodes_seated]
      simp only [List.map_append, List.map_cons, List.flatMap_append, List.flatMap_cons,
        Plant.idsAll_append, htexts]
      rw [List.perm_iff_count]
      intro k
      simp only [List.count_append]
      omega
  · rw [H.holes]
    exact H.front.append (.cons (hat h H.at_) hmodest H.leaf H.behind)

theorem at_of_child {b b' : ChildBinding} {plants' : List Plant}
    (hat : h.At roots (.child b, .child n plants)) : h.At roots (.child b', .child n plants') := by
  obtain ⟨q, hq, hplace, hmatch⟩ := hat
  refine ⟨q, hq, hplace, ?_⟩
  cases hkind : h.kind with
  | child => trivial
  | attr | text =>
    rw [hkind] at hmatch
    exact hmatch

section Text

variable {b : ChildBinding} (b' : ChildBinding) {old : String}

/-- The text of a binding is nowhere else. -/
theorem Parts.text (hp : Parts roots (A ++ (.child b, .child n plants) :: B) (l ++ x :: r)) :
    b.text ∉ Plant.idsAll roots ∧ b.text ∉ nodesAll (l ++ x :: r) := by
  have hmem : b.text ∈ ((A ++ (.child b, .child n plants) :: B).map Prod.fst).flatMap Binding.texts :=
    List.mem_flatMap.2 ⟨.child b, by simp, List.mem_singleton_self _⟩
  exact ⟨fun hm => hp.roots_texts _ hm hmem, hp.texts_nested _ hmem⟩

/-- What is done to the text of a binding is done to nothing else. -/
theorem amends_text
    (hx : (seated i roots (A ++ (.child b, .child n plants) :: B) (l ++ x :: r)).Proper)
    (hnd : (seated i roots (A ++ (.child b, .child n plants) :: B) (l ++ x :: r)).nodes.Nodup)
    (hlength : A.length = l.length) (htext : b'.text = b.text)
    (hf : ∀ q : Plant, q.id ≠ b.text → f q = [q]) (hmodest : Modest (.child b', .child n new))
    (hnew : Plant.graftAll f plants = new) :
    Amends f b.text (.child b, .child n plants) (.child b', .child n new)
      (seated i roots (A ++ (.child b, .child n plants) :: B) (l ++ x :: r))
      (seated i roots (A ++ (.child b', .child n new) :: B) (l ++ x :: r)) := by
  have hp := parts_seated hnd
  obtain ⟨hroots, hnested⟩ := hp.text
  obtain ⟨c, before, h, after, H⟩ := hx.exists_hole hlength
  obtain ⟨hA, hB⟩ := hp.avoids H.nested H.front H.behind (.inr (.inl (List.mem_singleton_self _)))
  have hself : Plant.graftAll f x.plants = x.plants := by
    refine Plant.graftAll_eq_self fun q hq => hf q ?_
    intro he
    have hproper := properAll_iff.1 H.nested x (by simp)
    exact hnested (nodes_subset_nodesAll (by simp) (Proper.ids.1 x hproper (he ▸ hq)))
  refine amends_entry hx hlength hf ?_ (alike_inner hlength hA hB hroots hf ?_)
    (fun h hat => at_of_child hat) hmodest (congrArg (fun k => [k]) htext)
  · rw [nodes_seated]
    simp [Binding.texts]
  · rw [Spot.trimmingWith, Spot.trimming, Trimming.map_join, Trimming.map_leading,
      Trimming.map_leading, hself, hnew]
    exact .refl _

/-- The text of a binding says something else. -/
theorem amends_say
    (hx : (seated i roots (A ++ (.child b, .child n [.text b.text old]) :: B) (l ++ x :: r)).Proper)
    (hnd : (seated i roots (A ++ (.child b, .child n [.text b.text old]) :: B)
      (l ++ x :: r)).nodes.Nodup)
    (hlength : A.length = l.length) (htext : b'.text = b.text) (data : String) :
    Amends (Plant.say b.text data) b.text (.child b, .child n [.text b.text old])
      (.child b', .child n [.text b.text data])
      (seated i roots (A ++ (.child b, .child n [.text b.text old]) :: B) (l ++ x :: r))
      (seated i roots (A ++ (.child b', .child n [.text b.text data]) :: B) (l ++ x :: r)) := by
  refine amends_text b' hx hnd hlength htext (fun q hq => ?_) (fun q hq => ?_) ?_
  · cases q with
    | text id said =>
      rw [Plant.say, if_neg (by exact hq)]
    | element | comment => rfl
  · rw [List.mem_singleton.1 hq, htext]
    exact ⟨data, rfl⟩
  · simp [Plant.graft, Plant.say]

/-- The text of a binding is not in use any more. -/
theorem amends_withdraw
    (hx : (seated i roots (A ++ (.child b, .child n [.text b.text old]) :: B) (l ++ x :: r)).Proper)
    (hnd : (seated i roots (A ++ (.child b, .child n [.text b.text old]) :: B)
      (l ++ x :: r)).nodes.Nodup)
    (hlength : A.length = l.length) (htext : b'.text = b.text) :
    Amends (Plant.without b.text) b.text (.child b, .child n [.text b.text old])
      (.child b', .child n [])
      (seated i roots (A ++ (.child b, .child n [.text b.text old]) :: B) (l ++ x :: r))
      (seated i roots (A ++ (.child b', .child n []) :: B) (l ++ x :: r)) := by
  refine amends_text b' hx hnd hlength htext (fun q hq => if_neg hq) (fun q hq => by cases hq) ?_
  simp [Plant.graft, Plant.without]

/-- The text of a binding is put in front of its placeholder, where nothing else is shown. -/
theorem amends_insert
    (hx : (seated i roots (A ++ (.child b, .child n []) :: B) (l ++ x :: r)).Proper)
    (hnd : (seated i roots (A ++ (.child b, .child n []) :: B) (l ++ x :: r)).nodes.Nodup)
    (hlength : A.length = l.length) (htext : b'.text = b.text) (hempty : x.plants = [])
    (data : String) :
    Amends (Plant.before n [.text b.text data]) n (.child b, .child n [])
      (.child b', .child n [.text b.text data])
      (seated i roots (A ++ (.child b, .child n []) :: B) (l ++ x :: r))
      (seated i roots (A ++ (.child b', .child n [.text b.text data]) :: B) (l ++ x :: r)) := by
  have hp := parts_seated hnd
  obtain ⟨c, before, h, after, H⟩ := hx.exists_hole hlength
  have hn : n ∈ Plant.idsAll roots := H.at_.place_mem
  obtain ⟨hA, hB⟩ := hp.avoids H.nested H.front H.behind (.inl hn)
  have hbehind : (added B r).before n = [] := by
    by_contra hne
    obtain ⟨q, hq⟩ := List.exists_mem_of_ne_nil _ hne
    obtain ⟨h', hh', e', -, -, -, -, hat', hplace, -⟩ := H.behind.mem_before hq
    obtain ⟨raw, hraw⟩ := H.attr_of_behind hp.nodup_roots hh' hat' hplace
    rw [(H.at_.of_child rfl).1] at hraw
    cases hraw
  refine amends_entry hx hlength (fun q hq => if_neg hq) ?_ ?_ (fun h hat => at_of_child hat)
    (fun q hq => ?_) (congrArg (fun k => [k]) htext)
  · rw [nodes_seated]
    simp [hn]
  · have hold : added (A ++ (.child b, .child n []) :: B) (l ++ x :: r)
        = (added A l).join (added B r) := by
      rw [added_append hlength, added_cons, Spot.trimmingWith, Spot.trimming, hempty,
        Trimming.leading_nil, Trimming.leading_nil, Trimming.join_none, Trimming.none_join]
    have hnew : added (A ++ (.child b', .child n [.text b.text data]) :: B) (l ++ x :: r)
        = (added A l).join ((Trimming.leading n [.text b.text data]).join (added B r)) := by
      rw [added_append hlength, added_cons, Spot.trimmingWith, Spot.trimming, hempty,
        Trimming.leading_nil, Trimming.join_none]
    rw [plants_seated, plants_seated, hold, hnew, Trimming.graftAll_before_put (hA.join hB),
      Trimming.join_assoc, Trimming.join_leading hbehind]
    exact .refl _
  · rw [List.mem_singleton.1 hq, htext]
    exact ⟨data, rfl⟩

end Text

/-- An attribute gets another value. -/
theorem amends_value {a : AttributeId} {attached attached' : Bool} {last last' : Option Value}
    {name : String} {value value' : Option String}
    {F : List (String × String) → List (String × String)}
    (hx : (seated i roots (A ++ (.attr n a attached last, .attr n name value) :: B)
      (l ++ x :: r)).Proper)
    (hnd : (seated i roots (A ++ (.attr n a attached last, .attr n name value) :: B)
      (l ++ x :: r)).nodes.Nodup)
    (hlength : A.length = l.length)
    (hF : ∀ l l' : List (String × String), (∀ pair ∈ l, pair.1 ≠ name) → (∀ pair ∈ l', pair.1 ≠ name) →
      (F (l ++ value.toList.map (name, ·) ++ l')).Perm (l ++ value'.toList.map (name, ·) ++ l')) :
    Amends (Plant.adorn n F) n (.attr n a attached last, .attr n name value)
      (.attr n a attached' last', .attr n name value')
      (seated i roots (A ++ (.attr n a attached last, .attr n name value) :: B) (l ++ x :: r))
      (seated i roots (A ++ (.attr n a attached' last', .attr n name value') :: B) (l ++ x :: r)) := by
  have hp := parts_seated hnd
  obtain ⟨c, before, h, after, H⟩ := hx.exists_hole hlength
  have hn : n ∈ Plant.idsAll roots := H.at_.place_mem
  obtain ⟨hA, hB⟩ := hp.avoids H.nested H.front H.behind (.inl hn)
  have hkind : ∃ raw, h.kind = .attr raw := by
    cases hk : h.kind with
    | attr raw => exact ⟨raw, rfl⟩
    | child =>
      obtain ⟨_, _, _, he⟩ := H.at_.child hk
      cases he
    | text =>
      obtain ⟨_, _, _, _, he⟩ := H.at_.text hk
      cases he
  obtain ⟨raw, hraw⟩ := hkind
  obtain ⟨_, _, _, _, _, _, _, tag, children, he, hfollow, rfl⟩ := H.at_.attr hraw
  cases he
  obtain ⟨v, rfl⟩ := H.leaf (by simp [hraw])
  have hcontent : Markup.Tree.follow c.content h.path = some (.element tag (Plant.trees children)) := by
    rw [← H.trees, Plant.follow_trees, hfollow]
    rfl
  -- the names of other holes at the element and those in the template are different ones
  have hdistinct := H.plain.distinct
  rw [H.holes, List.pairwise_append, List.pairwise_cons] at hdistinct
  have hspelled : ∀ (h' : Hole) (e' : Binding × Spot) (raw' : String) (value : Option String), h'.At roots e' → h'.kind = .attr raw' →
      ∀ name, e'.2 = .attr n name value → h'.path = h.path ∧ name = tag.space.spell raw' := by
    intro h' e' raw' value hat' hraw' name he'
    have hpath : h'.path = h.path := hat'.path_eq hp.nodup_roots H.at_ (by rw [he']; rfl)
    obtain ⟨_, _, _, _, _, _, _, tag', children', rfl, hfollow', rfl⟩ := hat'.attr hraw'
    cases he'
    rw [hpath, hfollow] at hfollow'
    cases hfollow'
    exact ⟨hpath, rfl⟩
  have hfront : ∀ pair ∈ (added A l).attributes n, pair.1 ≠ tag.space.spell raw := by
    intro pair hpair
    obtain ⟨h', hh', e', -, hat', raw', value, hraw', he'⟩ := H.front.mem_attributes hpair
    obtain ⟨hpath, hname⟩ := hspelled h' e' raw' value hat' hraw' pair.1 he'
    rw [hname]
    exact hdistinct.2.2 h' hh' h (List.mem_cons_self ..) raw' raw tag _ hraw' hraw hpath
      (hpath ▸ hcontent)
  have hbehind : ∀ pair ∈ (added B r).attributes n, pair.1 ≠ tag.space.spell raw := by
    intro pair hpair
    obtain ⟨h', hh', e', -, hat', raw', value, hraw', he'⟩ := H.behind.mem_attributes hpair
    obtain ⟨hpath, hname⟩ := hspelled h' e' raw' value hat' hraw' pair.1 he'
    rw [hname]
    exact (hdistinct.2.1.1 h' hh' raw raw' tag _ hraw hraw' hpath.symm hcontent).symm
  have hadded : ∀ attached last value, added (A ++ (.attr n a attached last,
      .attr n (tag.space.spell raw) value) :: B) (l ++ .leaf v :: r) = (added A l).join ((Trimming.adorning n
        (value.toList.map (tag.space.spell raw, ·))).join (added B r)) := by
    intro attached last value
    rw [added_append hlength, added_cons, Spot.trimmingWith, Spot.trimming, Exhibit.plants,
      Trimming.leading_nil, Trimming.join_none]
  refine amends_entry hx hlength (fun q hq => ?_) ?_ ?_ (fun h' hat => ?_) trivial rfl
  · cases q with
    | element id tag children => rw [Plant.adorn, if_neg (by exact hq)]
    | text | comment => rfl
  · rw [nodes_seated]
    simp [hn]
  · rw [plants_seated, plants_seated, hadded, hadded]
    refine Trimming.alike_adorn_put (hA.join (Trimming.avoids_adorning.join hB)) ?_ ?_
      (fun k hk => ?_) fun tag' children' hocc => ?_
    · exact fun k => rfl
    · exact fun k => rfl
    · simp [Trimming.join, Trimming.adorning, hk]
    · have hsame := hocc.eq_of_follow hp.nodup_roots hfollow rfl
      cases hsame
      have hperm := hF (tag.attributes ++ (added A l).attributes n) ((added B r).attributes n)
        (fun pair hpair => ?_) hbehind
      · simpa [Trimming.join, Trimming.adorning] using hperm
      · rcases List.mem_append.1 hpair with hpair | hpair
        · refine H.plain.unlisted h ?_ raw tag _ hraw hcontent pair hpair
          rw [H.holes]
          exact List.mem_append_right _ (List.mem_cons_self ..)
        · exact hfront pair hpair
  · obtain ⟨q, hq, hplace, hmatch⟩ := hat
    refine ⟨q, hq, hplace, ?_⟩
    cases hk : h'.kind with
    | attr name =>
      rw [hk] at hmatch
      exact hmatch
    | child | text =>
      rw [hk] at hmatch
      exact hmatch

/-- An element gets other content. -/
theorem amends_refill {last : Option Value} (last' : Option Value) {old : List Plant}
    (hx : (seated i roots (A ++ (.text n last, .text n (some old)) :: B) (l ++ x :: r)).Proper)
    (hnd : (seated i roots (A ++ (.text n last, .text n (some old)) :: B) (l ++ x :: r)).nodes.Nodup)
    (hlength : A.length = l.length) (hnew : ∀ q ∈ new, ∃ id data, q = .text id data) :
    Amends (Plant.fill n new) n (.text n last, .text n (some old)) (.text n last', .text n (some new))
      (seated i roots (A ++ (.text n last, .text n (some old)) :: B) (l ++ x :: r))
      (seated i roots (A ++ (.text n last', .text n (some new)) :: B) (l ++ x :: r)) := by
  have hp := parts_seated hnd
  obtain ⟨c, before, h, after, H⟩ := hx.exists_hole hlength
  have hn : n ∈ Plant.idsAll roots := H.at_.place_mem
  obtain ⟨hA, hB⟩ := hp.avoids H.nested H.front H.behind (.inl hn)
  have hkind : h.kind = .text := by
    cases hk : h.kind with
    | text => rfl
    | child =>
      obtain ⟨_, _, _, he⟩ := H.at_.child hk
      cases he
    | attr raw =>
      obtain ⟨_, _, _, _, _, _, _, _, _, he, -⟩ := H.at_.attr hk
      cases he
  obtain ⟨v, rfl⟩ := H.leaf (by simp [hkind])
  have hadded : ∀ last content, added (A ++ (.text n last, .text n (some content)) :: B)
      (l ++ .leaf v :: r) = (added A l).join ((Trimming.filling n content).join (added B r)) := by
    intro last content
    rw [added_append hlength, added_cons, Spot.trimmingWith, Spot.trimming, Exhibit.plants,
      Trimming.leading_nil, Trimming.join_none]
  have hfront : (added A l).content n = none := by
    by_contra hne
    obtain ⟨content, hcontent⟩ := Option.ne_none_iff_exists'.1 hne
    obtain ⟨h', hh', e', -, htext, hat', -, he'⟩ := H.front.content_eq hcontent
    obtain ⟨raw, hraw⟩ := H.attr_of_front hp.nodup_roots hh' hat' (by rw [he']; rfl)
    rw [htext] at hraw
    cases hraw
  have havoids : (added (A ++ (.text n last, .text n (some old)) :: B) (l ++ .leaf v :: r)).Avoids n := by
    rw [hadded]
    refine hA.join ((Trimming.avoids_filling fun hold => ?_).join hB)
    refine hp.roots_content n hn ?_
    simp only [List.map_append, List.map_cons, List.flatMap_append, List.flatMap_cons,
      Plant.idsAll_append, List.mem_append]
    exact .inr (.inl hold)
  refine amends_entry hx hlength (fun q hq => ?_) ?_ ?_ (fun h' hat => ?_) hnew rfl
  · cases q with
    | element id tag children => rw [Plant.fill, if_neg (by exact hq)]
    | text | comment => rfl
  · rw [nodes_seated]
    simp [hn]
  · rw [plants_seated, plants_seated, Trimming.graftAll_refill_put havoids, hadded, hadded]
    have hsame : ({ (added A l).join ((Trimming.filling n old).join (added B r)) with
        content := fun k => if k = n then some new else
          ((added A l).join ((Trimming.filling n old).join (added B r))).content k } :
          Trimming NodeId Plant)
        = (added A l).join ((Trimming.filling n new).join (added B r)) := by
      rw [Trimming.join, Trimming.join, Trimming.join, Trimming.join, Trimming.filling,
        Trimming.filling]
      refine Trimming.mk.injEq .. ▸ ⟨rfl, rfl, funext fun k => ?_⟩
      by_cases hk : k = n
      · simp [hk, hfront]
      · simp [hk]
    rw [hsame]
    exact .refl _
  · obtain ⟨q, hq, hplace, hmatch⟩ := hat
    refine ⟨q, hq, hplace, ?_⟩
    cases hk : h'.kind with
    | text => trivial
    | child | attr =>
      rw [hk] at hmatch
      exact hmatch

end Exhibit

end LiveMarkup
