import LiveMarkup.Proofs.Rendering.Display
import LiveMarkup.Proofs.Rendering.Retrimming
/-!
# What an exhibit is made of

Whatever an exhibit shows, the bindings of its instances are where the holes of their templates are, only
child holes have something nested, and what a spot adds by itself are texts (`Exhibit.Proper`). So each
node of an exhibit is one that has been made for it (`Exhibit.Proper.ids`), and it is known which hole
has put what where (`Seats.mem_before`, `Seats.mem_attributes`, `Seats.content_eq`).
-/

namespace LiveMarkup

open Markup (Tree Tag)

/-- What a spot adds by itself is the text of its binding, or texts as the content of its element. -/
def Modest : Binding × Spot → Prop
  | (.child c, .child _ plants) => ∀ q ∈ plants, ∃ data, q = .text c.text data
  | (.text _ _, .text _ (some plants)) => ∀ q ∈ plants, ∃ id data, q = .text id data
  | _ => True

/-- The bindings of an instance with their spots are where its holes are. Something is nested only in
child holes. -/
inductive Seats (roots : List Plant) : List Hole → List (Binding × Spot) → List Exhibit → Prop where
  | nil : Seats roots [] [] []
  | cons {h : Hole} {e : Binding × Spot} {x : Exhibit} {holes : List Hole}
      {es : List (Binding × Spot)} {xs : List Exhibit} (at_ : h.At roots e) (modest : Modest e)
      (leaf : h.kind ≠ .child → ∃ v, x = .leaf v) (rest : Seats roots holes es xs) :
      Seats roots (h :: holes) (e :: es) (x :: xs)

namespace Exhibit

mutual

/-- The instances of an exhibit are for templates that fit, with a binding for each hole. -/
def Proper : Exhibit → Prop
  | leaf _ => True
  | use i roots spots xs =>
    i.bindings.length = spots.length ∧
      (∃ c : Compiled, c.Coherent ∧ c.Plain ∧ Plant.trees roots = c.content ∧
        Seats roots c.holes (i.bindings.zip spots) xs) ∧ ProperAll xs
  | list xs => ProperAll xs

/-- The instances of some exhibits are for templates that fit. -/
def ProperAll : List Exhibit → Prop
  | [] => True
  | x :: xs => x.Proper ∧ ProperAll xs

end

/-- A use whose bindings are given together with their spots. -/
def seated (i : Instance) (roots : List Plant) (es : List (Binding × Spot)) (xs : List Exhibit) :
    Exhibit :=
  .use { i with bindings := es.map Prod.fst } roots (es.map Prod.snd) xs

/-- What the holes of a use add to its nodes. -/
def added (es : List (Binding × Spot)) (xs : List Exhibit) : Trimming NodeId Plant :=
  Spot.trimmings (es.map Prod.snd) (plantsAll xs)

variable {i : Instance} {roots : List Plant} {spots : List Spot} {e : Binding × Spot}
  {es es' : List (Binding × Spot)} {x y : Exhibit} {xs xs' : List Exhibit} {p : Plan} {ps : List Plan}
  {holes : List Hole} {h : Hole} {q : Plant} {k n : NodeId}

theorem properAll_iff : ProperAll xs ↔ ∀ x ∈ xs, x.Proper := by
  induction xs with
  | nil => simp [ProperAll]
  | cons x xs ih => rw [ProperAll, ih, List.forall_mem_cons]

theorem plantsAll_append (xs ys : List Exhibit) :
    plantsAll (xs ++ ys) = plantsAll xs ++ plantsAll ys := by
  induction xs with
  | nil => rfl
  | cons x xs ih => rw [List.cons_append, plantsAll, ih, plantsAll, List.cons_append]

theorem entriesAll_append (xs ys : List Exhibit) :
    entriesAll (xs ++ ys) = entriesAll xs ++ entriesAll ys := by
  induction xs with
  | nil => rfl
  | cons x xs ih => rw [List.cons_append, entriesAll, ih, entriesAll, List.append_assoc]

theorem nodesAll_append (xs ys : List Exhibit) : nodesAll (xs ++ ys) = nodesAll xs ++ nodesAll ys := by
  induction xs with
  | nil => rfl
  | cons x xs ih => rw [List.cons_append, nodesAll, ih, nodesAll, List.append_assoc]

theorem nodes_subset_nodesAll (hx : x ∈ xs) : x.nodes ⊆ nodesAll xs := by
  obtain ⟨l, r, rfl⟩ := List.append_of_mem hx
  rw [nodesAll_append, nodesAll]
  exact fun n hn => List.mem_append_right _ (List.mem_append_left _ hn)

theorem mem_nodesAll : n ∈ nodesAll xs ↔ ∃ x ∈ xs, n ∈ x.nodes := by
  constructor
  · intro hn
    induction xs with
    | nil => cases hn
    | cons x xs ih =>
      rw [nodesAll, List.mem_append] at hn
      rcases hn with hn | hn
      · exact ⟨x, List.mem_cons_self .., hn⟩
      · obtain ⟨y, hy, hn⟩ := ih hn
        exact ⟨y, List.mem_cons_of_mem _ hy, hn⟩
  · rintro ⟨x, hx, hn⟩
    exact nodes_subset_nodesAll hx hn

/-! ### Uses with their entries -/

theorem use_eq_seated (h : i.bindings.length = spots.length) :
    use i roots spots xs = seated i roots (i.bindings.zip spots) xs := by
  rw [seated, List.map_fst_zip (Nat.le_of_eq h), List.map_snd_zip (Nat.le_of_eq h.symm)]

theorem plants_seated :
    (seated i roots es xs).plants = Plant.graftAll (added es xs).put roots := by
  rw [seated, plants, added]

theorem entries_seated : (seated i roots es xs).entries = es ++ entriesAll xs := by
  rw [seated, entries, ← List.zip_of_prod rfl rfl]

theorem nodes_seated : (seated i roots es xs).nodes
    = Plant.idsAll roots ++ (es.map Prod.fst).flatMap Binding.texts ++ nodesAll xs
      ++ Plant.idsAll ((es.map Prod.snd).flatMap Spot.content) := by
  rw [seated, nodes]

theorem proper_seated : (seated i roots es xs).Proper ↔
    (∃ c : Compiled, c.Coherent ∧ c.Plain ∧ Plant.trees roots = c.content ∧
      Seats roots c.holes es xs) ∧ ProperAll xs := by
  rw [seated, Proper, List.length_map, List.length_map, ← List.zip_of_prod rfl rfl]
  exact and_iff_right rfl

theorem added_cons : added (e :: es) (x :: xs) = (e.2.trimmingWith x.plants).join (added es xs) := by
  rw [added, added, List.map_cons, plantsAll, Spot.trimmings]

theorem added_append (h : es.length = xs.length) :
    added (es ++ es') (xs ++ xs') = (added es xs).join (added es' xs') := by
  induction es generalizing xs with
  | nil =>
    cases xs with
    | nil =>
      have hnone : added [] [] = .none := Spot.trimmings_nil _
      rw [hnone, Trimming.none_join, List.nil_append, List.nil_append]
    | cons x xs => cases h
  | cons e es ih =>
    cases xs with
    | nil => cases h
    | cons x xs =>
      rw [List.cons_append, List.cons_append, added_cons, added_cons, ih (Nat.succ.inj h),
        Trimming.join_assoc]

end Exhibit

open Exhibit

/-! ### Bindings at holes -/

variable {i : Instance} {roots : List Plant} {e e' : Binding × Spot}
  {es es' : List (Binding × Spot)} {x y : Exhibit} {xs xs' l r : List Exhibit}
  {holes holes' : List Hole} {h h' : Hole} {q : Plant} {k n : NodeId} {plants new : List Plant}

namespace Hole.At

theorem place_mem (hat : h.At roots e) : e.2.place ∈ Plant.idsAll roots := by
  obtain ⟨q, hq, hplace, -⟩ := hat
  rw [hplace]
  exact Plant.id_mem_of_follow hq

/-- No two holes have different paths and one place. -/
theorem path_eq (hnd : (Plant.idsAll roots).Nodup) (hat : h.At roots e) (hat' : h'.At roots e')
    (he : e.2.place = e'.2.place) : h.path = h'.path := by
  obtain ⟨q, hq, hplace, -⟩ := hat
  obtain ⟨q', hq', hplace', -⟩ := hat'
  exact Plant.eq_of_follow hnd hq hq' (hplace.symm.trans (he.trans hplace'))

theorem child (hat : h.At roots e) (hkind : h.kind = .child) :
    ∃ c n plants, e = (.child c, .child n plants) := by
  obtain ⟨q, hq, hplace, hmatch⟩ := hat
  obtain ⟨b, s⟩ := e
  rw [hkind] at hmatch
  cases b <;> cases s <;> try exact False.elim hmatch
  exact ⟨_, _, _, rfl⟩

theorem attr {raw : String} (hat : h.At roots e) (hkind : h.kind = .attr raw) :
    ∃ n a attached last m name value tag children,
      e = (.attr n a attached last, .attr m name value) ∧
      Plant.follow roots h.path = some (.element m tag children) ∧ name = tag.space.spell raw := by
  obtain ⟨q, hq, hplace, hmatch⟩ := hat
  obtain ⟨b, s⟩ := e
  rw [hkind] at hmatch
  cases b <;> cases s <;> try exact False.elim hmatch
  case attr.attr n a attached last m name value =>
    obtain ⟨id, tag, children, rfl, rfl⟩ := hmatch
    have hm : m = id := hplace
    exact ⟨n, a, attached, last, m, _, value, tag, children, rfl, hm ▸ hq, rfl⟩

theorem text (hat : h.At roots e) (hkind : h.kind = .text) :
    ∃ n last m content, e = (.text n last, .text m content) := by
  obtain ⟨q, hq, hplace, hmatch⟩ := hat
  obtain ⟨b, s⟩ := e
  rw [hkind] at hmatch
  cases b <;> cases s <;> try exact False.elim hmatch
  exact ⟨_, _, _, _, rfl⟩

/-- Only a child hole has a spot that is in front of a placeholder. -/
theorem of_child (hat : h.At roots e) (hs : e.2 = .child k plants) :
    h.kind = .child ∧ ∃ c, e.1 = .child c := by
  cases hkind : h.kind with
  | child =>
    obtain ⟨c, n, plants, rfl⟩ := hat.child hkind
    exact ⟨rfl, c, rfl⟩
  | attr raw =>
    obtain ⟨n, a, attached, last, m, name, value, tag, children, rfl, -⟩ := hat.attr hkind
    cases hs
  | text =>
    obtain ⟨n, last, m, content, rfl⟩ := hat.text hkind
    cases hs

end Hole.At

namespace Seats

theorem append (hs : Seats roots holes es xs) (hs' : Seats roots holes' es' xs') :
    Seats roots (holes ++ holes') (es ++ es') (xs ++ xs') := by
  induction hs with
  | nil => exact hs'
  | cons at_ modest leaf _ ih => exact .cons at_ modest leaf ih

theorem length (hs : Seats roots holes es xs) : es.length = xs.length := by
  induction hs with
  | nil => rfl
  | cons _ _ _ _ ih => rw [List.length_cons, List.length_cons, ih]

/-- What belongs to one of several exhibits. -/
theorem split (hs : Seats roots holes es (l ++ x :: r)) :
    ∃ before h after A e B, holes = before ++ h :: after ∧ es = A ++ e :: B ∧ Seats roots before A l ∧
      h.At roots e ∧ Modest e ∧ (h.kind ≠ .child → ∃ v, x = .leaf v) ∧ Seats roots after B r := by
  induction l generalizing holes es with
  | nil =>
    cases hs with
    | cons at_ modest leaf rest => exact ⟨[], _, _, [], _, _, rfl, rfl, .nil, at_, modest, leaf, rest⟩
  | cons y l ih =>
    cases hs with
    | cons at_ modest leaf rest =>
      obtain ⟨before, h, after, A, e, B, rfl, rfl, hbefore, hat, hmodest, hleaf, hafter⟩ := ih rest
      exact ⟨_ :: before, h, after, _ :: A, e, B, rfl, rfl, .cons at_ modest leaf hbefore, hat, hmodest,
        hleaf, hafter⟩

/-- What is put in front of a node comes from child holes there. -/
theorem mem_before (hs : Seats roots holes es xs) (hq : q ∈ (added es xs).before k) :
    ∃ h ∈ holes, ∃ e ∈ es, ∃ x ∈ xs, h.kind = .child ∧ h.At roots e ∧ e.2.place = k ∧ Modest e ∧
      ((∃ plants, e.2 = .child k plants ∧ q ∈ plants) ∨ q ∈ x.plants) := by
  induction hs with
  | nil =>
    rw [added, List.map_nil, Spot.trimmings_nil] at hq
    cases hq
  | @cons h e x holes es xs hat hmodest leaf _ ih =>
    rw [added_cons] at hq
    rcases List.mem_append.1 hq with hq | hq
    · by_cases hkind : h.kind = .child
      · obtain ⟨c, n, plants, rfl⟩ := hat.child hkind
        have hk : k = n := by
          by_contra hk
          rw [Spot.trimmingWith, Spot.trimming, Trimming.join, Trimming.leading, Trimming.leading,
            Spot.place] at hq
          dsimp only at hq
          rw [if_neg hk, if_neg hk] at hq
          cases hq
        subst hk
        refine ⟨h, List.mem_cons_self .., _, List.mem_cons_self .., x, List.mem_cons_self .., hkind, hat,
          rfl, hmodest, ?_⟩
        rw [Spot.trimmingWith, Spot.trimming, Trimming.join, Trimming.leading, Trimming.leading,
          Spot.place] at hq
        dsimp only at hq
        rw [if_pos rfl, if_pos rfl] at hq
        exact (List.mem_append.1 hq).imp_left fun hq => ⟨plants, rfl, hq⟩
      · obtain ⟨v, rfl⟩ := leaf hkind
        rw [Spot.trimmingWith, plants, Trimming.leading_nil, Trimming.join_none] at hq
        obtain ⟨b, s⟩ := e
        cases s with
        | child m plants => exact absurd (hat.of_child rfl).1 hkind
        | attr m name value => cases hq
        | text m content => cases content <;> cases hq
    · obtain ⟨h', hh', e', he', x', hx', hrest⟩ := ih hq
      exact ⟨h', List.mem_cons_of_mem _ hh', e', List.mem_cons_of_mem _ he', x',
        List.mem_cons_of_mem _ hx', hrest⟩

/-- Attributes come from attribute holes of their names. -/
theorem mem_attributes (hs : Seats roots holes es xs) {pair : String × String}
    (hp : pair ∈ (added es xs).attributes k) :
    ∃ h ∈ holes, ∃ e ∈ es, h.At roots e ∧ ∃ raw value, h.kind = .attr raw ∧
      e.2 = .attr k pair.1 value := by
  induction hs with
  | nil =>
    rw [added, List.map_nil, Spot.trimmings_nil] at hp
    cases hp
  | @cons h e x holes es xs hat hmodest leaf _ ih =>
    rw [added_cons] at hp
    rcases List.mem_append.1 hp with hp | hp
    · obtain ⟨b, s⟩ := id e
      obtain ⟨q, hq, hplace, hmatch⟩ := id hat
      have hp : pair ∈ e.2.trimming.attributes k := by
        rcases List.mem_append.1 hp with hp | hp
        · exact hp
        · cases hp
      cases hk : h.kind with
      | child =>
        obtain ⟨c, n, plants, rfl⟩ := hat.child hk
        cases hp
      | text =>
        obtain ⟨n, last, m, content, rfl⟩ := hat.text hk
        cases content <;> cases hp
      | attr raw =>
        obtain ⟨n, a, attached, last, m, name, value, tag, children, rfl, hfollow, rfl⟩ := hat.attr hk
        rw [Spot.trimming, Trimming.adorning] at hp
        dsimp only at hp
        split at hp
        · rename_i hkm
          obtain ⟨v, hv, rfl⟩ := List.mem_map.1 hp
          exact ⟨h, List.mem_cons_self .., _, List.mem_cons_self .., hat, raw, value, hk, by rw [hkm]⟩
        · cases hp
    · obtain ⟨h', hh', e', he', hrest⟩ := ih hp
      exact ⟨h', List.mem_cons_of_mem _ hh', e', List.mem_cons_of_mem _ he', hrest⟩

/-- Content comes from text holes. -/
theorem content_eq (hs : Seats roots holes es xs) (hk : (added es xs).content k = some new) :
    ∃ h ∈ holes, ∃ e ∈ es, h.kind = .text ∧ h.At roots e ∧ Modest e ∧ e.2 = .text k (some new) := by
  induction hs with
  | nil =>
    rw [added, List.map_nil, Spot.trimmings_nil] at hk
    cases hk
  | @cons h e x holes es xs hat hmodest leaf _ ih =>
    rw [added_cons] at hk
    rcases Option.or_eq_some_iff.1 hk with hk | ⟨-, hk⟩
    · have hk : e.2.trimming.content k = some new := by
        rcases Option.or_eq_some_iff.1 hk with hk | ⟨-, hk⟩
        · exact hk
        · cases hk
      cases hkind : h.kind with
      | child =>
        obtain ⟨c, n, plants, rfl⟩ := hat.child hkind
        cases hk
      | attr raw =>
        obtain ⟨n, a, attached, last, m, name, value, tag, children, rfl, -⟩ := hat.attr hkind
        cases hk
      | text =>
        obtain ⟨n, last, m, content, rfl⟩ := hat.text hkind
        cases content with
        | none => cases hk
        | some plants =>
          rw [Spot.trimming, Trimming.filling] at hk
          dsimp only at hk
          split at hk
          · rename_i hkm
            cases hk
            exact ⟨h, List.mem_cons_self .., _, List.mem_cons_self .., hkind, hat, hmodest, by rw [hkm]⟩
          · cases hk
    · obtain ⟨h', hh', e', he', hrest⟩ := ih hk
      exact ⟨h', List.mem_cons_of_mem _ hh', e', List.mem_cons_of_mem _ he', hrest⟩

end Seats

/-! ### The nodes of an exhibit -/

theorem Modest.mem_texts (hm : Modest e) (hs : e.2 = .child k plants) (hat : h.At roots e)
    (hn : n ∈ Plant.idsAll plants) : n ∈ e.1.texts := by
  obtain ⟨-, c, hb⟩ := hat.of_child hs
  obtain ⟨b, s⟩ := e
  obtain rfl : s = .child k plants := hs
  obtain rfl : b = .child c := hb
  obtain ⟨q, hq, hn⟩ := Plant.mem_idsAll.1 hn
  obtain ⟨data, rfl⟩ := hm q hq
  rwa [Plant.ids] at hn

/-- The nodes that a use adds are its texts, those nested in it, and the content of elements. -/
theorem Seats.avoids (hs : Seats roots holes es xs) (hnested : ∀ x ∈ xs, n ∉ Plant.idsAll x.plants)
    (htexts : n ∉ (es.map Prod.fst).flatMap Binding.texts)
    (hcontent : n ∉ Plant.idsAll ((es.map Prod.snd).flatMap Spot.content)) : (added es xs).Avoids n where
  before k hn := by
    obtain ⟨q, hq, hn⟩ := Plant.mem_idsAll.1 hn
    obtain ⟨h, hh, e, he, x, hx, hkind, hat, hplace, hmodest, hmem⟩ := hs.mem_before hq
    rcases hmem with ⟨plants, hplants, hq⟩ | hq
    · refine htexts (List.mem_flatMap.2 ⟨e.1, List.mem_map_of_mem he, ?_⟩)
      exact hmodest.mem_texts hplants hat (Plant.mem_idsAll.2 ⟨q, hq, hn⟩)
    · exact hnested x hx (Plant.mem_idsAll.2 ⟨q, hq, hn⟩)
  content k new hk hn := by
    obtain ⟨h, hh, e, he, hkind, hat, hmodest, hnew⟩ := hs.content_eq hk
    obtain ⟨q, hq, hn⟩ := Plant.mem_idsAll.1 hn
    refine hcontent (Plant.mem_idsAll.2 ⟨q, List.mem_flatMap.2 ⟨e.2, List.mem_map_of_mem he, ?_⟩, hn⟩)
    rw [hnew]
    exact hq

namespace Exhibit

/-- What an exhibit comes to consists of nodes that have been made for it. -/
theorem Proper.ids :
    (∀ x : Exhibit, x.Proper → Plant.idsAll x.plants ⊆ x.nodes) ∧
      ∀ xs : List Exhibit, ProperAll xs → Plant.idsAll (plantsAll xs).flatten ⊆ nodesAll xs := by
  refine Exhibit.induct ?_ ?_ ?_ ?_ ?_
  · intro v _
    rw [plants, Plant.idsAll_nil]
    exact List.nil_subset _
  · intro i roots spots xs ih hx n hn
    have hlength := hx.1
    rw [use_eq_seated hlength] at hx hn ⊢
    obtain ⟨⟨c, -, -, -, hs⟩, hall⟩ := proper_seated.1 hx
    have hnested : ∀ x ∈ xs, Plant.idsAll x.plants ⊆ nodesAll xs := by
      intro x hx m hm
      refine ih hall ?_
      obtain ⟨q, hq, hm⟩ := Plant.mem_idsAll.1 hm
      refine Plant.mem_idsAll.2 ⟨q, List.mem_flatten.2 ⟨x.plants, ?_, hq⟩, hm⟩
      obtain ⟨l, r, rfl⟩ := List.append_of_mem hx
      rw [plantsAll_append, plantsAll]
      exact List.mem_append_right _ (List.mem_cons_self ..)
    rw [plants_seated] at hn
    rw [nodes_seated]
    by_contra hout
    simp only [List.mem_append, not_or] at hout
    obtain ⟨⟨⟨hroots, htexts⟩, hxs⟩, hcontent⟩ := hout
    have havoids := hs.avoids (fun x hx hm => hxs (hnested x hx hm)) htexts hcontent
    rcases Trimming.mem_idsAll_put hn with hn | ⟨k, hn⟩ | ⟨k, new, hk, hn⟩
    · exact hroots hn
    · exact havoids.before k hn
    · exact havoids.content k new hk hn
  · intro xs ih hx
    rw [plants, nodes]
    exact ih hx
  · intro _
    rw [plantsAll, List.flatten_nil, Plant.idsAll_nil]
    exact List.nil_subset _
  · intro x xs ihx ihxs hx n hn
    rw [plantsAll, List.flatten_cons, Plant.idsAll_append] at hn
    rw [nodesAll]
    rcases List.mem_append.1 hn with hn | hn
    · exact List.mem_append_left _ (ihx hx.1 hn)
    · exact List.mem_append_right _ (ihxs hx.2 hn)

/-- What has been made for a use is in four parts that have no node in common. -/
structure Parts (roots : List Plant) (es : List (Binding × Spot)) (xs : List Exhibit) : Prop where
  nodup_roots : (Plant.idsAll roots).Nodup
  nodup_texts : ((es.map Prod.fst).flatMap Binding.texts).Nodup
  nodup_nested : (nodesAll xs).Nodup
  roots_texts : ∀ n ∈ Plant.idsAll roots, n ∉ (es.map Prod.fst).flatMap Binding.texts
  roots_nested : ∀ n ∈ Plant.idsAll roots, n ∉ nodesAll xs
  roots_content : ∀ n ∈ Plant.idsAll roots, n ∉ Plant.idsAll ((es.map Prod.snd).flatMap Spot.content)
  texts_nested : ∀ n ∈ (es.map Prod.fst).flatMap Binding.texts, n ∉ nodesAll xs
  texts_content : ∀ n ∈ (es.map Prod.fst).flatMap Binding.texts,
    n ∉ Plant.idsAll ((es.map Prod.snd).flatMap Spot.content)
  nested_content : ∀ n ∈ nodesAll xs, n ∉ Plant.idsAll ((es.map Prod.snd).flatMap Spot.content)

theorem parts_seated (hnd : (seated i roots es xs).nodes.Nodup) : Parts roots es xs := by
  rw [nodes_seated, List.nodup_append, List.nodup_append, List.nodup_append] at hnd
  obtain ⟨⟨⟨hroots, htexts, hrt⟩, hxs, hrx⟩, hcontent, hrc⟩ := hnd
  refine ⟨hroots, htexts, hxs, fun n hn hm => hrt n hn n hm rfl, fun n hn hm => ?_, fun n hn hm => ?_,
    fun n hn hm => ?_, fun n hn hm => ?_, fun n hn hm => ?_⟩
  · exact hrx n (List.mem_append_left _ hn) n hm rfl
  · exact hrc n (List.mem_append_left _ (List.mem_append_left _ hn)) n hm rfl
  · exact hrx n (List.mem_append_right _ hn) n hm rfl
  · exact hrc n (List.mem_append_left _ (List.mem_append_right _ hn)) n hm rfl
  · exact hrc n (List.mem_append_right _ hn) n hm rfl

/-! ### What is shown is made properly -/

theorem modest_of_shown {blocks : List Block} {p : Plan} (h : Shown e blocks p) : Modest e := by
  obtain ⟨b, s⟩ := e
  cases b <;> cases s <;> try trivial
  case child.child c n plants =>
    obtain ⟨-, hplants⟩ := h
    intro q hq
    cases hp : p.primitive? with
    | none =>
      rw [hp] at hplants
      rw [hplants.2] at hq
      cases hq
    | some v =>
      rw [hp] at hplants
      rw [hplants.2, List.mem_singleton] at hq
      exact ⟨_, hq⟩
  case text.text n last m content =>
    obtain ⟨-, plants, rfl, htrees⟩ := h
    intro q hq
    have hmem : q.tree ∈ Plant.trees plants := by
      rw [Plant.trees_eq_map]
      exact List.mem_map_of_mem hq
    rw [htrees] at hmem
    split at hmem
    · cases hmem
    · rw [List.mem_singleton] at hmem
      cases q with
      | text id data => exact ⟨id, data, rfl⟩
      | element id tag children =>
        rw [Plant.tree] at hmem
        cases hmem
      | comment id data =>
        rw [Plant.tree] at hmem
        cases hmem

theorem ShownIn.seats {ps : List Plan} (h : ShownIn roots holes es xs ps) (hx : ShowsAll xs ps) :
    Seats roots holes es xs := by
  induction h with
  | nil => exact .nil
  | cons at_ shown leaf rest ih =>
    refine .cons at_ (modest_of_shown shown) (fun hkind => ?_) (ih hx.2)
    obtain ⟨v, rfl⟩ := leaf hkind
    exact ⟨v, eq_leaf_of_shows hx.1⟩

theorem fits_of_list (hfits : (Plan.list ps).Fits) : ∀ p ∈ ps, p.Fits := by
  cases hfits with
  | list hfits _ => exact hfits
  | @texts v rest hv h =>
    intro p hp
    obtain ⟨w, hw, rfl⟩ := List.mem_map.1 hp
    exact .leaf ((List.forall_mem_cons.2 ⟨.inr hv, h⟩ : ∀ w ∈ v :: rest, w.IsPlain) w hw)

/-- What shows a plan that fits is made properly. -/
theorem proper_of_shows :
    (∀ (x : Exhibit) (p : Plan), x.Shows p → p.Fits → x.Proper) ∧
      ∀ (xs : List Exhibit) (ps : List Plan), ShowsAll xs ps → (∀ p ∈ ps, p.Fits) → ProperAll xs := by
  refine induct ?_ ?_ ?_ ?_ ?_
  · intro v p _ _
    rw [Proper]
    trivial
  · intro i roots spots xs ih p hx hfits
    cases p with
    | use space template compiled ps =>
      obtain ⟨-, -, -, htrees, -, hlength, hshown, hall⟩ := hx
      cases hfits with
      | use hc hp _ hfits _ =>
        rw [Proper]
        exact ⟨hlength, ⟨compiled, hc, hp, htrees, hshown.seats hall⟩, ih ps hall hfits⟩
    | leaf w => exact False.elim hx
    | list items => exact False.elim hx
  · intro xs ih p hx hfits
    rw [Proper]
    cases p with
    | list ps => exact ih ps hx (fits_of_list hfits)
    | leaf w => exact False.elim hx
    | use space template compiled ps => exact False.elim hx
  · intro ps _ _
    rw [ProperAll]
    trivial
  · intro x xs ihx ihxs ps hxs hfits
    cases ps with
    | nil => exact False.elim hxs
    | cons p ps =>
      exact ⟨ihx p hxs.1 (hfits p (List.mem_cons_self ..)),
        ihxs ps hxs.2 fun p hp => hfits p (List.mem_cons_of_mem _ hp)⟩

end Exhibit

end LiveMarkup
