import LiveMarkup.Proofs.Rendering.Creation
import LiveMarkup.Proofs.Rendering.Vacancy
/-!
# Filling the holes of an instance

The holes of a new instance are filled one after another. All that has been added so far is a trimming
of the plants that the instance was made with, and each hole adds to it what its spot says
(`Filling`). What is put there is loose or new, so nothing that was there before the instance is touched.
-/

namespace LiveMarkup

namespace Document

variable {start d d' : Document} {root : Option NodeId} {roots ps : List Plant}
  {t : Trimming NodeId Plant} {x : Block × List Plant} {xs pieces : List (Block × List Plant)}
  {e : Binding × Spot} {entries : List (Binding × Spot)} {n p : NodeId} {nodes : List NodeId}

theorem Spares.trans {base d'' : Document} (h : Spares base d d') (h' : Spares base d' d'') :
    Spares base d d'' where
  nodes_le := Nat.le_trans h.nodes_le h'.nodes_le
  attributes_le := Nat.le_trans h.attributes_le h'.attributes_le
  kind n hn := (h'.kind n (Nat.lt_of_lt_of_le hn h.nodes_le)).trans (h.kind n hn)
  same n hn := (h.same n hn).trans (h'.same n hn)
  loose n hn hp := h'.loose n hn (h.loose n hn hp)
  attr a ha := (h'.attr a ha).trans (h.attr a ha)
  notices := h'.notices.trans h.notices

theorem Spares.refl (base d : Document) : Spares base d d :=
  ⟨Nat.le_refl _, Nat.le_refl _, fun _ _ => rfl, fun n _ => .refl d n, fun _ _ h => h, fun _ _ => rfl,
    rfl⟩

/-- An instance whose holes are being filled: its plants with what has been added to them, and pieces
that are still to be put there. All of it has been made since `start`. -/
structure Filling (start d : Document) (root : Option NodeId) (roots : List Plant)
    (t : Trimming NodeId Plant) (pieces : List (Block × List Plant))
    (entries : List (Binding × Spot)) : Prop where
  ready : d.Ready root (Plant.graftAll t.put roots) pieces entries
  grown : ∀ n, start.Has n → d.Has n
  has : ∀ n ∈ Plant.idsAll roots, d.Has n
  new : ∀ n, Within root (Plant.graftAll t.put roots) n → ¬ start.Has n
  pieces_new : ∀ x ∈ pieces, ∀ n, Within x.1.root? x.2 n → ¬ start.Has n
  own : ∀ n ∈ Plant.idsAll roots, root ≠ some n ∧ ¬ start.Has n ∧ t.Avoids n ∧
    ∀ x ∈ pieces, ¬ Within x.1.root? x.2 n
  fragment : ∀ f, root = some f → d.isFragment f = true
  bare : root = none → ∀ n ∈ roots.map Plant.id, t.before n = []

namespace Filling

theorem grown_of_spares (F : Filling start d root roots t pieces entries) (h : Spares start d d') :
    ∀ n, start.Has n → d'.Has n := fun n hn => Nat.lt_of_lt_of_le (F.grown n hn) h.nodes_le

theorem has_of_spares (F : Filling start d root roots t pieces entries) (h : Spares start d d') :
    ∀ n ∈ Plant.idsAll roots, d'.Has n := fun n hn => Nat.lt_of_lt_of_le (F.has n hn) h.nodes_le

theorem fragment_of_spares (F : Filling start d root roots t pieces entries) (h : Spares start d d') :
    ∀ f, root = some f → d'.isFragment f = true := by
  intro f hf
  rw [isFragment, h.kind f (F.ready.rooted f hf)]
  exact F.fragment f hf

theorem tops (F : Filling start d root roots t pieces entries) (hroot : root = none) :
    (Plant.graftAll t.put roots).map Plant.id = roots.map Plant.id :=
  Trimming.map_id_graftAll_put (F.bare hroot)

/-- A node of the template that is in sight has a parent, unless it is topmost and nothing is above it. -/
theorem parent (F : Filling start d root roots t pieces entries)
    (hvisible : n ∈ Plant.idsAll (Plant.graftAll t.put roots))
    (htop : root = none → n ∉ roots.map Plant.id) : ∃ p, d.parent? n = some p := by
  rcases F.ready.bears.parent_of_mem F.ready.sound.forest hvisible with ⟨hroot, hmem⟩ | ⟨p, hp, -⟩
  · rw [F.tops hroot] at hmem
    exact absurd hmem (htop hroot)
  · exact ⟨p, hp⟩

theorem not_top (F : Filling start d root roots t pieces entries) (hp : d.parent? n = some p)
    (hroot : root = none) : n ∉ roots.map Plant.id := by
  rw [← F.tops hroot]
  intro hn
  obtain ⟨q, hq, rfl⟩ := List.mem_map.1 hn
  rw [F.ready.top hroot q hq] at hp
  cases hp

/-- A loose piece is put in front of a node of the template. -/
theorem insert (F : Filling start d root roots t (x :: pieces) entries) (hn : n ∈ Plant.idsAll roots)
    (hvisible : n ∈ Plant.idsAll (Plant.graftAll t.put roots)) (hp : d.parent? n = some p) :
    Filling start (d.insertBlock p x.1 (some n)) root roots (t.join (.leading n x.2)) pieces entries ∧
      Spares start d (d.insertBlock p x.1 (some n)) ∧
      (d.insertBlock p x.1 (some n)).parent? n = some p ∧ d.Gentle (d.insertBlock p x.1 (some n)) ∧
      (d.insertBlock p x.1 (some n)).Vacated x.1.fragments := by
  have hmem : x ∈ x :: pieces := List.mem_cons_self ..
  have hspares := F.ready.spares_insert hvisible hp F.new (F.pieces_new x hmem)
  have hready := F.ready.insert hvisible hp
  obtain ⟨front, behind, hrow, hins⟩ := F.ready.inserted hvisible hp
  have hgentle := gentle_of_inserted hins (by rw [hrow]; simp)
  have hgraft : Plant.graftAll (Plant.before n x.2) (Plant.graftAll t.put roots) = _ :=
    Trimming.graftAll_before_put (F.own n hn).2.2.1
  have hout : ∀ m ∈ Plant.idsAll roots, m ∉ Plant.idsAll x.2 := fun m hm hmx =>
    (F.own m hm).2.2.2 x hmem (.inr hmx)
  refine ⟨⟨hgraft ▸ hready, F.grown_of_spares hspares, F.has_of_spares hspares, fun m hm => ?_,
    fun y hy => F.pieces_new y (List.mem_cons_of_mem x hy), fun m hm => ?_,
    F.fragment_of_spares hspares, fun hroot m hm => ?_⟩, hspares, ?_, hgentle, ⟨x.1.nodup_fragments, fun f hf => ?_⟩⟩
  · rw [← hgraft] at hm
    exact (within_before hm).elim (F.new m) fun hm => F.pieces_new x hmem m (.inr hm)
  · obtain ⟨hroot, hstart, havoid, hpieces⟩ := F.own m hm
    exact ⟨hroot, hstart, havoid.join (Trimming.avoids_leading (hout m hm)), fun y hy =>
      hpieces y (List.mem_cons_of_mem x hy)⟩
  · have hmn : m ≠ n := by
      rintro rfl
      exact F.not_top hp hroot hm
    show t.before m ++ (if m = n then x.2 else []) = []
    rw [F.bare hroot m hm, if_neg hmn, List.append_nil]
  · rw [hins.parent?, if_neg, hp]
    intro hnx
    obtain ⟨q, hq, rfl⟩ := List.mem_map.1 hnx
    exact hout _ hn (Plant.id_mem_idsAll hq)
  · have hloose := F.ready.loose x hmem
    obtain ⟨hhas, hfragment⟩ := hloose.fragment hf
    have hchildren := hloose.bears.row f (mem_root_iff.1 hf)
    refine ⟨hgentle.has f hhas, (hgentle.isFragment hhas).trans hfragment, ?_⟩
    rw [hins.children_of_ne f, hchildren]
    · exact List.filter_eq_nil_iff.2 fun m hm => by simpa using hm
    · rintro rfl
      have hmem' : n ∈ x.2.map Plant.id := hchildren ▸ F.ready.sound.forest.mem_of_parent hp
      exact (F.own n hn).2.2.2 x hmem (.inr (mem_idsAll_of_mem_map hmem'))

/-- Several pieces are put in front of a node of the template, each of them taken out of its fragment. -/
theorem insertAll (F : Filling start d root roots t (xs ++ pieces) entries)
    (hn : n ∈ Plant.idsAll roots)
    (hvisible : ∀ t' : Trimming NodeId Plant, t'.content = t.content →
      n ∈ Plant.idsAll (Plant.graftAll t'.put roots)) (hp : d.parent? n = some p) :
    Filling start ((xs.map Prod.fst).foldl (fun d b => d.insertBlock p b (some n)) d) root roots
        (t.join (.leading n (xs.flatMap Prod.snd))) pieces entries ∧
      Spares start d ((xs.map Prod.fst).foldl (fun d b => d.insertBlock p b (some n)) d) ∧
      d.Gentle ((xs.map Prod.fst).foldl (fun d b => d.insertBlock p b (some n)) d) ∧
      ((xs.map Prod.fst).foldl (fun d b => d.insertBlock p b (some n)) d).Vacated
        ((xs.map Prod.fst).flatMap Block.fragments) := by
  induction xs generalizing d t with
  | nil =>
    rw [List.flatMap_nil, Trimming.leading_nil, Trimming.join_none]
    exact ⟨F, .refl start d, .refl d, .nil⟩
  | cons x xs ih =>
    obtain ⟨F', hspares, hp', hgentle, hself⟩ := F.insert hn (hvisible t rfl) hp
    have hcontent : (t.join (.leading n x.2)).content = t.content := by
      funext k
      exact Option.or_none ..
    obtain ⟨F'', hspares', hgentle', hrest⟩ := ih F' (fun t' ht' => hvisible t' (ht'.trans hcontent)) hp'
    rw [Trimming.join_assoc, Trimming.leading_join] at F''
    rw [List.map_cons, List.foldl_cons, List.flatMap_cons]
    refine ⟨F'', hspares.trans hspares', hgentle.trans hgentle', (hself.gentle hgentle').append hrest ?_⟩
    intro f hf hf'
    obtain ⟨b, hb, hf'⟩ := List.mem_flatMap.1 hf'
    obtain ⟨y, hy, rfl⟩ := List.mem_map.1 hb
    have hapart := (List.pairwise_cons.1 F.ready.apart).1 y (List.mem_append_left _ hy)
    exact hapart f (.inl (mem_root_iff.1 hf)) (.inl (mem_root_iff.1 hf'))

/-- The text of a binding is made a piece. -/
theorem reveal {c : ChildBinding} (c' : ChildBinding)
    (F : Filling start d root roots t pieces ((.child c, .child n []) :: entries))
    (hplaceholder : c'.placeholder = c.placeholder) (htext : c'.text = c.text)
    (hnew : ¬ start.Has c.text) (hown : c.text ∉ Plant.idsAll roots) (data : String) :
    Filling start (d.setData c.text data) root roots t
        ((.single c.text, [.text c.text data]) :: pieces)
        ((.child c', .child n [.text c.text data]) :: entries) ∧
      Spares start d (d.setData c.text data) := by
  have hspares : Spares start d (d.setData c.text data) := Ready.spares_setData data hnew
  have hwithin : ∀ m, Within (Block.single c.text).root? [Plant.text c.text data] m → m = c.text := by
    rintro m (hm | hm)
    · cases hm
    · simpa [Plant.ids] using hm
  refine ⟨⟨F.ready.reveal c' hplaceholder htext data, F.grown_of_spares hspares,
    F.has_of_spares hspares, F.new,
    List.forall_mem_cons.2 ⟨fun m hm => ?_, F.pieces_new⟩, fun m hm => ?_,
    F.fragment_of_spares hspares, F.bare⟩, hspares⟩
  · rw [hwithin m hm]
    exact hnew
  · obtain ⟨hroot, hstart, havoid, hpieces⟩ := F.own m hm
    refine ⟨hroot, hstart, havoid, List.forall_mem_cons.2 ⟨fun hw => ?_, hpieces⟩⟩
    exact hown (hwithin m hw ▸ hm)

/-- An attribute is put on an element of the template. -/
theorem adorn {a : AttributeId} {attached : Bool} (attached' : Bool) {last : Option Value}
    (last' : Option Value) {name : String} {m : NodeId}
    (F : Filling start d root roots t pieces ((.attr n a attached last, .attr m name none) :: entries))
    (hn : n ∈ Plant.idsAll roots) (ha : ¬ start.HasAttribute a) (v : String) :
    Filling start ((d.setAttributeValue a v).putAttribute n a) root roots
        (t.join (.adorning n [(name, v)])) pieces
        ((.attr n a attached' last', .attr m name (some v)) :: entries) ∧
      Spares start d ((d.setAttributeValue a v).putAttribute n a) ∧
      d.Gentle ((d.setAttributeValue a v).putAttribute n a) := by
  obtain ⟨-, hstart, havoid, hpieces⟩ := F.own n hn
  obtain ⟨hready, hre, hspares⟩ := F.ready.adorn hpieces v
  have hspares := hspares start hstart ha
  have hgraft : Plant.graftAll _ (Plant.graftAll t.put roots) = _ :=
    Trimming.graftAll_adorn_put havoid [(name, v)]
  refine ⟨⟨hgraft ▸ hready, F.grown_of_spares hspares, F.has_of_spares hspares,
    fun m hm => ?_, F.pieces_new, fun m hm => ?_,
    F.fragment_of_spares hspares, fun hroot m hm =>
      (List.append_nil _).trans (F.bare hroot m hm)⟩, hspares, hre.gentle⟩
  · rw [← hgraft] at hm
    exact F.new m (within_adorn hm)
  · obtain ⟨hroot, hstart, havoid, hpieces⟩ := F.own m hm
    exact ⟨hroot, hstart, havoid.join Trimming.avoids_adorning, hpieces⟩

/-- An element of the template gets other content. -/
theorem fill {last : Option Value} (last' : Option Value) {content : Option (List Plant)}
    (content' : Option (List Plant)) {m : NodeId} {new : List Plant}
    (F : Filling start d root roots t pieces ((.text n last, .text m content) :: entries))
    (hn : n ∈ Plant.idsAll roots) (hr : Rewritten d d' n new) (hcontent : t.content n = none) :
    Filling start d' root roots (t.join (.filling n new)) pieces
        ((.text n last', .text m content') :: entries) ∧ Spares start d d' := by
  obtain ⟨hroot, hstart, havoid, hpieces⟩ := F.own n hn
  have hspares := Ready.spares_fill hr F.grown hstart
  have hgraft : Plant.graftAll (Plant.fill n new) (Plant.graftAll t.put roots) = _ :=
    Trimming.graftAll_fill_put havoid hcontent
  have hready := F.ready.fill last' content' hr hroot hpieces
  have hfresh : ∀ m ∈ Plant.idsAll new, ¬ start.Has m := fun m hm hs => hr.fresh m hm (F.grown m hs)
  refine ⟨⟨hgraft ▸ hready, F.grown_of_spares hspares, F.has_of_spares hspares,
    fun m hm => ?_, F.pieces_new, fun m hm => ?_,
    F.fragment_of_spares hspares, fun hroot m hm =>
      (List.append_nil _).trans (F.bare hroot m hm)⟩, hspares⟩
  · rw [← hgraft] at hm
    exact (within_fill hm).elim (F.new m) (hfresh m)
  · obtain ⟨hroot, hstart, havoid, hpieces⟩ := F.own m hm
    refine ⟨hroot, hstart, havoid.join (Trimming.avoids_filling fun hmn => ?_), hpieces⟩
    exact hr.fresh m hmn (F.has m hm)

theorem keeps (F : Filling start d root roots t pieces entries) (h : Keeps d d' nodes)
    (hs : d'.Sound) (hroot : ∀ p, root = some p → p ∈ nodes)
    (htops : root = none → ∀ n ∈ roots.map Plant.id, n ∈ nodes)
    (hpieces : ∀ x ∈ pieces, x.1.held ⊆ nodes) (hentries : ∀ e ∈ entries, e.1.held ⊆ nodes) :
    Filling start d' root roots t pieces entries where
  ready := F.ready.keeps h hs hroot (fun hnone q hq => htops hnone q.id (by
    rw [← F.tops hnone]
    exact List.mem_map_of_mem hq)) hpieces hentries
  grown n hn := h.has (F.grown n hn)
  has n hn := h.has (F.has n hn)
  new := F.new
  pieces_new := F.pieces_new
  own := F.own
  fragment f hf := by
    rw [isFragment, h.kind f (F.ready.rooted f hf)]
    exact F.fragment f hf
  bare := F.bare

theorem release (F : Filling start d root roots t pieces entries) {custody : Custody}
    (hroot : ∀ p, root = some p → p ∈ custody.nodes)
    (htops : root = none → ∀ n ∈ roots.map Plant.id, n ∈ custody.nodes)
    (hpieces : ∀ x ∈ pieces, x.1.held ⊆ custody.nodes)
    (hentries : ∀ e ∈ entries, e.1.held ⊆ custody.nodes) :
    Filling start (d.release custody) root roots t pieces entries :=
  F.keeps (keeps_release (List.Subset.refl _)) (F.ready.sound.release custody) hroot htops hpieces
    hentries

theorem perm {entries' : List (Binding × Spot)} (F : Filling start d root roots t pieces entries)
    (h : entries.Perm entries') : Filling start d root roots t pieces entries' :=
  { F with ready := F.ready.perm (.refl _) h }

end Filling

end Document

end LiveMarkup
