import LiveMarkup.Proofs.Document.Contents
import LiveMarkup.Proofs.Rendering.Exhibit
/-!
# What a document has ready

While a plan is shown, the nodes made for it are in pieces: blocks that have not been put anywhere, and
the plants of one place that is being filled. `Document.Ready` says what can be relied on then: every
piece is where it should be, no node is in two of them, and every binding has what it needs. Each change
of the place that is filled keeps this: a piece is put in front of a node (`Ready.insert`), a text is
made a piece (`Ready.reveal`), an attribute is put on an element (`Ready.adorn`), an element gets a
text as its content (`Ready.fill`). Steps elsewhere keep it as well (`Ready.keeps`), and what they
make can be added (`Ready.append`).
-/

namespace LiveMarkup

/-- A node is the root of some plants, or in them. -/
def Within (root : Option NodeId) (ps : List Plant) (n : NodeId) : Prop :=
  root = some n ∨ n ∈ Plant.idsAll ps

theorem within_before {root : Option NodeId} {ps qs : List Plant} {n m : NodeId}
    (h : Within root (Plant.graftAll (Plant.before n qs) ps) m) :
    Within root ps m ∨ m ∈ Plant.idsAll qs := by
  rcases h with h | h
  · exact .inl (.inl h)
  · refine (Plant.mem_idsAll_graftAll (fun q k hk => ?_) h).imp_left .inr
    rw [Plant.before] at hk
    split at hk
    · rw [Plant.idsAll_append, List.mem_append] at hk
      exact hk.symm.imp_left fun hk => by simpa using hk
    · exact .inl (by simpa using hk)

theorem within_adorn {root : Option NodeId} {ps : List Plant} {n m : NodeId}
    {f : List (String × String) → List (String × String)}
    (h : Within root (Plant.graftAll (Plant.adorn n f) ps) m) : Within root ps m := by
  rcases h with h | h
  · exact .inl h
  · refine .inr ((Plant.mem_idsAll_graftAll (E := fun _ => False) (fun q k hk => .inl ?_)
      h).resolve_right id)
    cases q <;> simpa [Plant.adorn, Plant.ids] using hk

theorem within_fill {root : Option NodeId} {ps new : List Plant} {n m : NodeId}
    (h : Within root (Plant.graftAll (Plant.fill n new) ps) m) :
    Within root ps m ∨ m ∈ Plant.idsAll new := by
  rcases h with h | h
  · exact .inl (.inl h)
  · refine (Plant.mem_idsAll_graftAll (fun q k hk => ?_) h).imp_left .inr
    cases q with
    | element id tag children =>
      rw [Plant.fill, Plant.idsAll_cons, Plant.idsAll_nil, List.append_nil, Plant.ids,
        List.mem_cons] at hk
      rw [Plant.ids, List.mem_cons]
      split at hk
      · exact hk.imp_left .inl
      · exact .inl hk
    | text id data => exact .inl (by simpa [Plant.fill] using hk)
    | comment id data => exact .inl (by simpa [Plant.fill] using hk)

theorem Separate.symm {e e' : Binding × Spot} (h : Separate e e') : Separate e' e := by
  obtain ⟨b, s⟩ := e
  obtain ⟨b', s'⟩ := e'
  cases b <;> cases b' <;> cases s <;> cases s' <;> try trivial
  all_goals
    first
    | exact Ne.symm h
    | exact ⟨Ne.symm h.1, fun he => Ne.symm (h.2 he.symm)⟩

namespace Document

variable {d d' base : Document} {root : Option NodeId} {ps qs : List Plant} {b : Block}
  {x : Block × List Plant} {pieces pieces' : List (Block × List Plant)}
  {e : Binding × Spot} {entries entries' : List (Binding × Spot)} {n m p : NodeId}
  {nodes : List NodeId}

/-- The plants of a place, some loose pieces, and what some bindings need. -/
structure Ready (d : Document) (root : Option NodeId) (ps : List Plant)
    (pieces : List (Block × List Plant)) (entries : List (Binding × Spot)) : Prop where
  sound : d.Sound
  bears : d.Bears root ps
  rooted : ∀ p, root = some p → d.Has p
  top : root = none → ∀ q ∈ ps, d.parent? q.id = none
  loose : ∀ x ∈ pieces, d.Loose x.1 x.2
  apart : pieces.Pairwise fun x y => ∀ n, Within x.1.root? x.2 n → ¬ Within y.1.root? y.2 n
  aside : ∀ x ∈ pieces, ∀ n, Within x.1.root? x.2 n → ¬ Within root ps n
  supports : ∀ e ∈ entries, d.Supports e
  separate : entries.Pairwise Separate
  hidden : ∀ c n, (.child c, .child n []) ∈ entries →
    ¬ Within root ps c.text ∧ ∀ x ∈ pieces, ¬ Within x.1.root? x.2 c.text

/-! ### Pieces -/

theorem Loose.has (h : d.Loose b qs) (hn : Within b.root? qs n) : d.Has n := by
  rcases hn with hn | hn
  · cases b with
    | single m => cases hn
    | group g =>
      cases hn
      exact (h.group g rfl).1
  · exact h.bears.has hn

theorem Supports.setData (hs : d.Supports e) (n : NodeId) (data : String) :
    (d.setData n data).Supports e := by
  have hattributes : ∀ m, ((d.setData n data).node m).attributes = (d.node m).attributes := by
    intro m
    rw [Document.setData, node_update]
    split <;> rfl
  obtain ⟨b, s⟩ := e
  cases b <;> cases s <;> try exact False.elim hs
  case child.child c m plants =>
    obtain ⟨hm, hhas, hkind, hnone⟩ := hs
    exact ⟨hm, has_setData.2 hhas, kind_setData.trans hkind, fun he =>
      parent?_setData.trans (hnone he)⟩
  case attr.attr m a attached last m' name value =>
    obtain ⟨hm, hhas, helement, hrest⟩ := hs
    refine ⟨hm, has_setData.2 hhas, ?_, ?_⟩
    · rw [isElement, kind_setData]
      exact helement
    · rw [hattributes]
      exact hrest
  case text.text m last m' content =>
    obtain ⟨hm, hhas, helement⟩ := hs
    refine ⟨hm, has_setData.2 hhas, ?_⟩
    rw [isElement, kind_setData]
    exact helement

theorem Supports.rewritten {new : List Plant} (hs : d.Supports e) (hr : Rewritten d d' n new) :
    d'.Supports e := by
  obtain ⟨b, s⟩ := e
  cases b <;> cases s <;> try exact False.elim hs
  case child.child c m plants =>
    obtain ⟨hm, hhas, hkind, hnone⟩ := hs
    exact ⟨hm, hr.has hhas, (hr.kind hhas).trans hkind, fun he => hr.parent? _ hhas (hnone he)⟩
  case attr.attr m a attached last m' name value =>
    obtain ⟨hm, hhas, helement, ha, hrest⟩ := hs
    refine ⟨hm, hr.has hhas, ?_, ?_, ?_⟩
    · rw [isElement, hr.kind hhas]
      exact helement
    · rw [HasAttribute, hr.attributes]
      exact ha
    · rw [hr.attributesOf hhas]
      simp only [hr.attr]
      exact hrest
  case text.text m last m' content =>
    obtain ⟨hm, hhas, helement⟩ := hs
    refine ⟨hm, hr.has hhas, ?_⟩
    rw [isElement, hr.kind hhas]
    exact helement

/-- A piece stays loose if its nodes are not touched. -/
theorem Loose.congr (h : d.Loose b qs) (hsame : ∀ m, Within b.root? qs m → Unchanged d d' m)
    (hnone : ∀ n, b = .single n → d.parent? n = none → d'.parent? n = none) : d'.Loose b qs where
  bears :=
    ⟨fun p hp => by rw [(hsame p (.inl hp)).children, h.bears.row p hp], fun q hq =>
      (h.bears.stand q hq).congr fun m hm => hsame m (.inr (Plant.mem_idsAll.2 ⟨q, hq, hm⟩))⟩
  single n hn := ⟨(h.single n hn).1, hnone n hn (h.single n hn).2⟩
  group g hg := by
    obtain ⟨hhas, hfragment, hfirst⟩ := h.group g hg
    have hu := hsame g.fragment (.inl (by rw [hg]; rfl))
    refine ⟨hu.has hhas, ?_, hfirst⟩
    rw [isFragment, hu.kind]
    exact hfragment

/-- The fragment of a piece is not among its nodes. -/
theorem Loose.root_not_mem (hf : d.Forest) (h : d.Loose b qs) (hr : b.root? = some n) :
    n ∉ Plant.idsAll qs := by
  have hnd := (hr ▸ h.bears).nodup hf
  exact (List.nodup_cons.1 hnd).1

theorem mem_held_of_root (hr : b.root? = some n) : n ∈ b.held := by
  cases b with
  | single m => cases hr
  | group g =>
    cases hr
    exact List.mem_cons_self ..

theorem Loose.mem_held (h : d.Loose b qs) (hr : b.root? = none) (hn : n ∈ qs.map Plant.id) :
    n ∈ b.held := by
  cases b with
  | single m =>
    rw [(h.single m rfl).1] at hn
    exact hn
  | group g => cases hr

/-- The parent of a topmost node of a piece is its fragment. -/
theorem Loose.parent? (hf : d.Forest) (h : d.Loose b qs) (hn : n ∈ qs.map Plant.id) :
    d.parent? n = b.root? := by
  cases b with
  | single m =>
    obtain ⟨hids, hnone⟩ := h.single m rfl
    rw [hids, List.mem_singleton] at hn
    rw [hn]
    exact hnone
  | group g => exact hf.parent_of_mem (h.bears.row g.fragment rfl ▸ hn)

theorem Loose.collect {g : Group} (hf : d.Forest) (h : d.Loose (.group g) qs) : d.collect g = d := by
  rw [Document.collect]
  split
  · rfl
  · rename_i hmembers
    have hfirst := (h.group g rfl).2.2.resolve_left fun he => hmembers (by rw [he]; rfl)
    have hparent : d.parent? g.first = some g.fragment := h.parent? hf hfirst
    have hnone : Document.loose d g = [] := by
      rw [Document.loose, hparent]
      exact if_pos rfl
    rw [hnone]
    rfl

theorem mem_idsAll_of_mem_map (h : n ∈ qs.map Plant.id) : n ∈ Plant.idsAll qs := by
  obtain ⟨q, hq, rfl⟩ := List.mem_map.1 h
  exact Plant.id_mem_idsAll hq

/-- Puts the nodes of a block into `p`, in front of the reference. -/
def insertBlock (d : Document) (p : NodeId) (block : Block) (reference : Option NodeId) : Document :=
  (d.access block .insert).2.insertBefore p (d.access block .insert).1 reference

theorem Bears.within_of_above (hf : d.Forest) (h : d.Bears root ps) (ha : d.Above m n)
    (hn : Within root ps n) : Within root ps m := by
  rcases hn with hn | hn
  · cases ha with
    | self => exact .inl hn
    | @up m' _ ha hp =>
      have htop : m' ∈ ps.map Plant.id := h.row n hn ▸ hf.mem_of_parent hp
      obtain ⟨q, hq, rfl⟩ := List.mem_map.1 htop
      exact .inr (h.mem_of_above hf ha (Plant.id_mem_idsAll hq))
  · exact .inr (h.mem_of_above hf ha hn)

/-- Putting a piece between the children of a node that is not in it. -/
theorem Loose.inserted (hf : d.Forest) (h : d.Loose b qs) (hp : d.Has p) (hinner : d.leaf? p = none)
    {front behind : List NodeId} (hrow : d.children p = front ++ behind)
    (hout : ¬ Within b.root? qs p) :
    Inserted d (d.insertBlock p b behind.head?) p (qs.map Plant.id) front behind := by
  have hadoptable : ∀ m ∈ qs.map Plant.id, d.Adoptable p m := fun m hm =>
    ⟨hp, h.bears.has (mem_idsAll_of_mem_map hm), hinner, h.bears.solid (mem_idsAll_of_mem_map hm),
      fun ha => hout (h.bears.within_of_above hf ha (.inr (mem_idsAll_of_mem_map hm)))⟩
  cases b with
  | single m =>
    obtain ⟨hids, -⟩ := h.single m rfl
    rw [hids] at hadoptable ⊢
    exact inserted_insertBefore ⟨hf, hrow, hadoptable, List.nodup_singleton m⟩
  | group g =>
    have hchildren : d.children g.fragment = qs.map Plant.id := h.bears.row g.fragment rfl
    have hins : Insertable d p (d.children g.fragment) front behind :=
      ⟨hf, hrow, by rw [hchildren]; exact hadoptable, hf.nodup _⟩
    have hinsert := inserted_insertBefore_fragment hins (h.group g rfl).2.1 fun m hm hhead => by
      have hmem : m ∈ d.children p := by
        rw [hrow]
        exact List.mem_append_right _ (List.mem_of_mem_head? hhead)
      have hparent := hf.parent_of_mem hm
      rw [hf.parent_of_mem hmem] at hparent
      exact hout (.inl hparent.symm)
    have hblock : d.insertBlock p (.group g) behind.head? = d.insertBefore p g.fragment behind.head? := by
      show (d.collect g).insertBefore p g.fragment behind.head? = _
      rw [h.collect hf]
    rw [hblock, ← hchildren]
    exact hinsert

/-! ### Putting a piece in its place -/

namespace Ready

/-- A node of the place that has a parent has it there. -/
theorem parent_within (g : d.Ready root ps pieces entries) (hn : n ∈ Plant.idsAll ps)
    (hp : d.parent? n = some p) : Within root ps p := by
  rcases g.bears.parent_of_mem g.sound.forest hn with ⟨hroot, htop⟩ | ⟨p', hp', hmem⟩
  · obtain ⟨q, hq, rfl⟩ := List.mem_map.1 htop
    rw [g.top hroot q hq] at hp
    cases hp
  · rw [hp] at hp'
    cases hp'
    exact hmem

theorem has (g : d.Ready root ps pieces entries) (hn : Within root ps n) : d.Has n :=
  hn.elim (g.rooted n) g.bears.has

theorem inserted (g : d.Ready root ps (x :: pieces) entries) (hn : n ∈ Plant.idsAll ps)
    (hp : d.parent? n = some p) :
    ∃ front behind, d.children p = front ++ n :: behind ∧
      Inserted d (d.insertBlock p x.1 (some n)) p (x.2.map Plant.id) front (n :: behind) := by
  have hf := g.sound.forest
  obtain ⟨front, behind, hrow⟩ := List.append_of_mem (hf.mem_of_parent hp)
  refine ⟨front, behind, hrow, ?_⟩
  exact (g.loose x (List.mem_cons_self ..)).inserted hf
    (has_of_mem_children (hf.mem_of_parent hp)) (hf.inner hp) hrow fun hm =>
    g.aside x (List.mem_cons_self ..) p hm (g.parent_within hn hp)

/-- Nothing but the new parent and the fragment of the piece is touched. -/
theorem unchanged_insert (g : d.Ready root ps (x :: pieces) entries) {front behind : List NodeId}
    (hins : Inserted d d' p (x.2.map Plant.id) front behind) (hmp : m ≠ p)
    (hmx : x.1.root? ≠ some m) : Unchanged d d' m := by
  refine hins.relinked.unchanged ?_
  rw [hins.children_of_ne m hmp, filter_notMem_of_disjoint]
  intro k hk hkm
  have hparent := (g.loose x (List.mem_cons_self ..)).parent? g.sound.forest hk
  rw [g.sound.forest.parent_of_mem hkm] at hparent
  exact hmx hparent.symm

section Inserted

variable {front behind : List NodeId}

theorem stands_inserted (g : d.Ready root ps (x :: pieces) entries)
    (hins : Inserted d d' p (x.2.map Plant.id) front behind) (hp : ¬ Within x.1.root? x.2 p) :
    ∀ q ∈ x.2, d'.Stands q := by
  intro q hq
  have hx := g.loose x (List.mem_cons_self ..)
  refine (hx.bears.stand q hq).congr fun m hm => g.unchanged_insert hins ?_ fun hr => ?_
  · rintro rfl
    exact hp (.inr (Plant.mem_idsAll.2 ⟨q, hq, hm⟩))
  · exact hx.root_not_mem g.sound.forest hr (Plant.mem_idsAll.2 ⟨q, hq, hm⟩)

/-- The other pieces stay loose. -/
theorem loose_inserted (g : d.Ready root ps (x :: pieces) entries)
    (hins : Inserted d d' p (x.2.map Plant.id) front behind)
    (hp : ∀ y ∈ pieces, ¬ Within y.1.root? y.2 p) : ∀ y ∈ pieces, d'.Loose y.1 y.2 := by
  intro y hy
  have hyx := (List.pairwise_cons.1 g.apart).1 y hy
  have hy' := g.loose y (List.mem_cons_of_mem x hy)
  refine hy'.congr (fun m hm => g.unchanged_insert hins ?_ fun hr => ?_) fun k hk hnone => ?_
  · rintro rfl
    exact hp y hy hm
  · exact hyx m (.inl hr) hm
  · rw [hins.parent?, if_neg, hnone]
    intro hkx
    refine hyx k (.inr (mem_idsAll_of_mem_map hkx)) (.inr (mem_idsAll_of_mem_map ?_))
    rw [(hy'.single k hk).1]
    exact List.mem_singleton_self k

theorem supports_inserted (g : d.Ready root ps (x :: pieces) entries)
    (hins : Inserted d d' p (x.2.map Plant.id) front behind) : ∀ e ∈ entries, d'.Supports e := by
  intro e he
  refine (g.supports e he).relinked hins.relinked fun c k hc hnone => ?_
  rw [hins.parent?, if_neg, hnone]
  exact fun hm => (g.hidden c k (hc ▸ he)).2 x (List.mem_cons_self ..)
    (.inr (mem_idsAll_of_mem_map hm))

/-- A loose piece is put into a node that has no children. -/
theorem mount (g : d.Ready none [] (x :: pieces) entries) (hp : d.Has p) (hinner : d.leaf? p = none)
    (hrow : d.children p = []) (hout : ∀ y ∈ x :: pieces, ¬ Within y.1.root? y.2 p)
    (htexts : ∀ c n, (.child c, .child n []) ∈ entries → c.text ≠ p) :
    (d.insertBlock p x.1 none).Ready (some p) x.2 pieces entries ∧
      Inserted d (d.insertBlock p x.1 none) p (x.2.map Plant.id) [] [] := by
  have hmem : x ∈ x :: pieces := List.mem_cons_self ..
  have hapart := List.pairwise_cons.1 g.apart
  have hins : Inserted d (d.insertBlock p x.1 none) p (x.2.map Plant.id) [] [] :=
    (g.loose x hmem).inserted g.sound.forest hp hinner (show d.children p = [] ++ [] from hrow)
      (hout x hmem)
  refine ⟨?_, hins⟩
  generalize d.insertBlock p x.1 none = d' at *
  refine ⟨⟨hins.forest, g.sound.owned.relinked hins.relinked⟩,
    ⟨fun r hr => ?_, g.stands_inserted hins (hout x hmem)⟩, fun r hr => ?_, fun h => by (cases h),
    g.loose_inserted hins fun y hy => hout y (List.mem_cons_of_mem x hy), hapart.2,
    fun y hy m hm hw => ?_, g.supports_inserted hins, g.separate, fun c k hc => ⟨fun hw => ?_,
    fun y hy => (g.hidden c k hc).2 y (List.mem_cons_of_mem x hy)⟩⟩
  · cases hr
    rw [hins.children_self]
    simp
  · cases hr
    exact hins.relinked.has.2 hp
  · rcases hw with hw | hw
    · cases hw
      exact hout y (List.mem_cons_of_mem x hy) hm
    · exact hapart.1 y hy m (.inr hw) hm
  · rcases hw with hw | hw
    · exact htexts c k hc (Option.some.inj hw).symm
    · exact (g.hidden c k hc).2 x hmem (.inr hw)

end Inserted

/-- A loose piece is put in front of a node of the place. -/
theorem insert (g : d.Ready root ps (x :: pieces) entries) (hn : n ∈ Plant.idsAll ps)
    (hp : d.parent? n = some p) :
    (d.insertBlock p x.1 (some n)).Ready root (Plant.graftAll (Plant.before n x.2) ps) pieces
      entries := by
  obtain ⟨front, behind, hrow, hins⟩ := g.inserted hn hp
  have hmem : x ∈ x :: pieces := List.mem_cons_self ..
  have hx := g.loose x hmem
  have hf := g.sound.forest
  have hpw := g.parent_within hn hp
  have hout : ∀ y ∈ x :: pieces, ¬ Within y.1.root? y.2 p := fun y hy hw => g.aside y hy p hw hpw
  have hapart := List.pairwise_cons.1 g.apart
  generalize d.insertBlock p x.1 (some n) = d' at *
  refine ⟨⟨hins.forest, g.sound.owned.relinked hins.relinked⟩, ?_, fun r hr => ?_, fun hr q hq => ?_,
    g.loose_inserted hins fun y hy => hout y (List.mem_cons_of_mem x hy), hapart.2,
    fun y hy m hm => ?_, g.supports_inserted hins, g.separate, fun c k hc => ?_⟩
  · refine g.bears.insert hf hins hrow rfl (g.stands_inserted hins (hout x hmem)) fun q hq m hm hmq => ?_
    have hparent := hx.parent? hf hm
    rw [hf.parent_of_mem hmq] at hparent
    exact g.aside x hmem q (.inl hparent.symm) hq
  · exact hins.relinked.has.2 (g.rooted r hr)
  · -- the node in front of which the piece is put is not a topmost one
    obtain ⟨r, hr', hq⟩ := Plant.mem_graftAll.1 hq
    have htop : ∀ r ∈ ps, d'.parent? r.id = none := by
      intro r hr'
      rw [hins.parent?, if_neg, g.top hr r hr']
      exact fun hm => g.aside x hmem _ (.inr (mem_idsAll_of_mem_map hm))
        (.inr (Plant.id_mem_idsAll hr'))
    have hrn : r.id ≠ n := by
      rintro rfl
      rw [g.top hr r hr'] at hp
      cases hp
    have hid : q.id = r.id := by
      cases r <;>
      · rw [Plant.graft, Plant.before, if_neg (by exact hrn)] at hq
        have hq := congrArg Plant.id (List.mem_singleton.1 hq)
        exact hq
    rw [hid]
    exact htop r hr'
  · intro hw
    rcases within_before hw with hw | hk
    · exact g.aside y (List.mem_cons_of_mem x hy) m hm hw
    · exact hapart.1 y hy m (.inr hk) hm
  · have hhidden := g.hidden c k hc
    refine ⟨fun hw => ?_, fun y hy => hhidden.2 y (List.mem_cons_of_mem x hy)⟩
    exact (within_before hw).elim hhidden.1 fun hk => hhidden.2 x hmem (.inr hk)

theorem spares_insert (g : d.Ready root ps (x :: pieces) entries) (hn : n ∈ Plant.idsAll ps)
    (hp : d.parent? n = some p) (hbase : ∀ m, Within root ps m → ¬ base.Has m)
    (hbase' : ∀ m, Within x.1.root? x.2 m → ¬ base.Has m) :
    Spares base d (d.insertBlock p x.1 (some n)) := by
  obtain ⟨front, behind, -, hins⟩ := g.inserted hn hp
  have hpw := g.parent_within hn hp
  refine ⟨Nat.le_of_eq hins.relinked.size.symm, ?_, fun m _ => hins.relinked.kind m, fun m hm => ?_,
    fun m hm hnone => ?_, fun a _ => hins.relinked.attr a, hins.notices⟩
  · exact Nat.le_of_eq (congrArg Array.size hins.relinked.attributes).symm
  · refine g.unchanged_insert hins (fun he => ?_) fun hr => ?_
    · exact hbase p hpw (he ▸ hm)
    · exact hbase' m (.inl hr) hm
  · rw [hins.parent?, if_neg, hnone]
    intro hmx
    obtain ⟨q, hq, rfl⟩ := List.mem_map.1 hmx
    exact hbase' _ (.inr (Plant.id_mem_idsAll hq)) hm

/-! ### Using a text -/

/-- A text that is not in use is given something to say, and is a piece from then on. -/
theorem reveal {c : ChildBinding} (c' : ChildBinding)
    (g : d.Ready root ps pieces ((.child c, .child n []) :: entries))
    (hplaceholder : c'.placeholder = c.placeholder) (htext : c'.text = c.text) (data : String) :
    (d.setData c.text data).Ready root ps ((.single c.text, [.text c.text data]) :: pieces)
      ((.child c', .child n [.text c.text data]) :: entries) := by
  obtain ⟨hc, hhas, hkind, hnone⟩ := g.supports _ (List.mem_cons_self ..)
  obtain ⟨hps, hpieces⟩ := g.hidden c n (List.mem_cons_self ..)
  have hids : Plant.idsAll [Plant.text c.text data] = [c.text] := by simp [Plant.ids]
  have hwithin : ∀ m, Within (Block.single c.text).root? [Plant.text c.text data] m → m = c.text := by
    rintro m (hm | hm)
    · cases hm
    · rwa [hids, List.mem_singleton] at hm
  have hne : ∀ {root ps}, ¬ Within root ps c.text → ∀ m, Within root ps m → m ≠ c.text := by
    rintro root ps hw m hm rfl
    exact hw hm
  have hseparate := List.pairwise_cons.1 g.separate
  refine ⟨g.sound.setData _ _, ⟨fun p hp => ?_, fun q hq => ?_⟩,
    fun p hp => has_setData.2 (g.rooted p hp), fun hr q hq => ?_,
    List.forall_mem_cons.2 ⟨?_, fun x hx => ?_⟩, List.pairwise_cons.2 ⟨fun x hx m hm => ?_, g.apart⟩,
    List.forall_mem_cons.2 ⟨fun m hm => ?_, g.aside⟩, List.forall_mem_cons.2 ⟨?_, fun e he => ?_⟩,
    List.pairwise_cons.2 ⟨fun e he => ?_, hseparate.2⟩, fun k m hk => ?_⟩
  · rw [children_setData, g.bears.row p hp]
  · refine (g.bears.stand q hq).congr fun m hm => unchanged_setData ?_
    exact hne hps m (.inr (Plant.mem_idsAll.2 ⟨q, hq, hm⟩))
  · rw [parent?_setData, g.top hr q hq]
  · refine ⟨⟨fun p hp => ?_, fun q hq => ?_⟩, fun k hk => ?_, fun f hf => ?_⟩
    · cases hp
    · rw [List.mem_singleton.1 hq]
      exact .text (has_setData.2 hhas) (kind_setData.trans hkind) (by rw [node_setData hhas])
    · cases hk
      exact ⟨rfl, parent?_setData.trans (hnone rfl)⟩
    · cases hf
  · refine (g.loose x hx).congr (fun m hm => unchanged_setData (hne (hpieces x hx) m hm)) fun k _ hk => ?_
    rw [parent?_setData, hk]
  · rw [hwithin m hm]
    exact hpieces x hx
  · rw [hwithin m hm]
    exact hps
  · refine ⟨hplaceholder.trans hc, ?_, ?_, fun he => by cases he⟩
    · rw [htext]
      exact has_setData.2 hhas
    · rw [htext, kind_setData, hkind]
  · exact (g.supports e (List.mem_cons_of_mem _ he)).setData _ _
  · obtain ⟨b', s'⟩ := e
    have hs := hseparate.1 _ he
    cases b' with
    | child k =>
      rw [Separate, htext]
      exact hs
    | _ => trivial
  · rcases List.mem_cons.1 hk with hk | hk
    · cases hk
    · have hhidden := g.hidden k m (List.mem_cons_of_mem _ hk)
      refine ⟨hhidden.1, List.forall_mem_cons.2 ⟨fun hw => ?_, hhidden.2⟩⟩
      exact hseparate.1 _ hk (hwithin _ hw).symm

theorem spares_setData (data : String) (hn : ¬ base.Has n) : Spares base d (d.setData n data) := by
  refine ⟨?_, Nat.le_refl _, fun m _ => kind_setData, fun m hm => unchanged_setData ?_,
    fun m _ hnone => parent?_setData.trans hnone, fun a _ => rfl, rfl⟩
  · rw [setData, size_nodes_update]
    exact Nat.le_refl _
  · rintro rfl
    exact hn hm

/-! ### Attributes and content -/

section Attribute

variable {a : AttributeId} {attached attached' : Bool} {last last' : Option Value} {name : String}
  {value value' : Option String} {f : List (String × String) → List (String × String)}

/-- One attribute has changed, and is on no other element. -/
theorem reattribute
    (g : d.Ready root ps pieces ((.attr n a attached last, .attr m name value) :: entries))
    (hs : d'.Sound) (hre : Reattributed d d' n a)
    (hpairs : d'.attributePairs n = f (d.attributePairs n))
    (hmem : ∀ b, b ≠ a → (b ∈ (d'.node n).attributes ↔ b ∈ (d.node n).attributes))
    (hplace : ∀ k, k ≠ n → a ∉ (d.node k).attributes)
    (hfree : value' = none → (d'.attr a).owner = none)
    (hput : ∀ v, value' = some v → a ∈ (d'.node n).attributes ∧ (d'.attr a).value = v)
    (hpieces : ∀ x ∈ pieces, ¬ Within x.1.root? x.2 n) :
    d'.Ready root (Plant.graftAll (Plant.adorn n f) ps) pieces
      ((.attr n a attached' last', .attr m name value') :: entries) := by
  obtain ⟨rfl, hhas, helement, ha, hname, hother, -⟩ := g.supports _ (List.mem_cons_self ..)
  have hseparate := List.pairwise_cons.1 g.separate
  have hname' : (d'.attr a).name = name := hre.name.trans hname
  have hattr : ∀ b, (d'.attr b).name = (d.attr b).name := by
    intro b
    by_cases hb : b = a
    · rw [hb, hre.name]
    · rw [hre.attr b hb]
  have hnone : ∀ k, d.parent? k = none → d'.parent? k = none := fun k hk => (hre.parent? k).trans hk
  refine ⟨hs, g.bears.adorn hre hpairs hplace, fun p hp => hre.has.2 (g.rooted p hp), fun hr q hq => ?_,
    fun x hx => ?_, g.apart, fun x hx k hk hw => g.aside x hx k hk (within_adorn hw),
    List.forall_mem_cons.2 ⟨?_, fun e he => ?_⟩,
    List.pairwise_cons.2 ⟨fun e he => ?_, hseparate.2⟩, fun c k hc => ?_⟩
  · have htops : (Plant.graftAll (Plant.adorn n f) ps).map Plant.id = ps.map Plant.id :=
      tops_graftAll fun r => by cases r <;> rfl
    obtain ⟨r, hr', hid⟩ := List.mem_map.1 (htops ▸ List.mem_map_of_mem hq)
    rw [← hid]
    exact hnone _ (g.top hr r hr')
  · refine (g.loose x hx).congr (fun k hk => ?_) fun k _ hk => hnone k hk
    have hkn : k ≠ n := by
      rintro rfl
      exact hpieces x hx hk
    exact hre.unchanged hkn (hplace k hkn)
  · refine ⟨rfl, hre.has.2 hhas, ?_, ?_, hname', fun b hb hba => ?_, hfree, hput⟩
    · rw [isElement, hre.kind]
      exact helement
    · rw [HasAttribute, hre.attributes]
      exact ha
    · rw [hattr]
      exact hother b ((hmem b hba).1 hb) hba
  · have hsep := hseparate.1 e he
    have hsup := g.supports e (List.mem_cons_of_mem _ he)
    obtain ⟨b, s⟩ := e
    cases b <;> cases s <;> try exact False.elim hsup
    case child.child c j plants =>
      exact ⟨hsup.1, hre.has.2 hsup.2.1, (hre.kind _).trans hsup.2.2.1, fun hp =>
        hnone _ (hsup.2.2.2 hp)⟩
    case attr.attr k a' attached₂ last₂ k' name₂ value₂ =>
      obtain ⟨rfl, hhas₂, helement₂, ha₂, hname₂, hother₂, hfree₂, hput₂⟩ := hsup
      obtain ⟨hne, hnames⟩ := hsep
      refine ⟨rfl, hre.has.2 hhas₂, ?_, ?_, (hattr _).trans hname₂, fun b hb hba => ?_, fun hv => ?_,
        fun v hv => ?_⟩
      · rw [isElement, hre.kind]
        exact helement₂
      · rw [HasAttribute, hre.attributes]
        exact ha₂
      · by_cases hkn : n = k
        · subst hkn
          by_cases hb' : b = a
          · rw [hb', hname']
            exact hnames rfl
          · rw [hattr]
            exact hother₂ b ((hmem b hb').1 hb) hba
        · rw [hre.node_of_ne (Ne.symm hkn)] at hb
          rw [hattr]
          exact hother₂ b hb hba
      · rw [hre.attr a' (Ne.symm hne)]
        exact hfree₂ hv
      · rw [hre.attr a' (Ne.symm hne)]
        refine ⟨?_, (hput₂ v hv).2⟩
        by_cases hkn : n = k
        · subst hkn
          exact (hmem a' (Ne.symm hne)).2 (hput₂ v hv).1
        · rw [hre.node_of_ne (Ne.symm hkn)]
          exact (hput₂ v hv).1
    case text.text k last₂ k' content =>
      refine ⟨hsup.1, hre.has.2 hsup.2.1, ?_⟩
      rw [isElement, hre.kind]
      exact hsup.2.2
  · have hsep := hseparate.1 e he
    obtain ⟨b, s⟩ := e
    cases b <;> cases s <;> exact hsep
  · rcases List.mem_cons.1 hc with hc | hc
    · cases hc
    · have hhidden := g.hidden c k (List.mem_cons_of_mem _ hc)
      exact ⟨fun hw => hhidden.1 (within_adorn hw), hhidden.2⟩

theorem spares_reattribute (hre : Reattributed d d' n a) (hplace : ∀ k, k ≠ n → a ∉ (d.node k).attributes)
    (hn : ¬ base.Has n) (ha : ¬ base.HasAttribute a) : Spares base d d' where
  nodes_le := Nat.le_of_eq hre.size.symm
  attributes_le := Nat.le_of_eq hre.attributes.symm
  kind m _ := hre.kind m
  same m hm := by
    have hmn : m ≠ n := by
      rintro rfl
      exact hn hm
    exact hre.unchanged hmn (hplace m hmn)
  loose m _ hm := (hre.parent? m).trans hm
  attr b hb := by
    refine hre.attr b ?_
    rintro rfl
    exact ha hb
  notices := hre.notices

/-- An attribute that is on no element is put on one with a value. -/
theorem adorn
    (g : d.Ready root ps pieces ((.attr n a attached last, .attr m name none) :: entries))
    (hpieces : ∀ x ∈ pieces, ¬ Within x.1.root? x.2 n) (v : String) :
    ((d.setAttributeValue a v).putAttribute n a).Ready root
        (Plant.graftAll (Plant.adorn n (· ++ [(name, v)])) ps) pieces
        ((.attr n a attached' last', .attr m name (some v)) :: entries) ∧
      Reattributed d ((d.setAttributeValue a v).putAttribute n a) n a ∧
      ∀ base : Document, ¬ base.Has n → ¬ base.HasAttribute a →
        Spares base d ((d.setAttributeValue a v).putAttribute n a) := by
  obtain ⟨rfl, hhas, helement, ha, hname, hother, hfree, -⟩ := g.supports _ (List.mem_cons_self ..)
  have hfresh : ∀ m, a ∉ (d.node m).attributes := by
    intro m hm
    have howner := g.sound.owned.owner hm
    rw [hfree rfl] at howner
    cases howner
  obtain ⟨hsound, hre, hattr, hattributes⟩ := shown_attribute g.sound hhas helement ha (hfree rfl)
    (fun b hb he => hother b hb (fun hba => hfresh n (hba ▸ hb)) (he.trans hname)) v
  generalize (d.setAttributeValue a v).putAttribute n a = d' at *
  refine ⟨g.reattribute hsound hre ?_ (fun b hb => ?_) (fun k _ => hfresh k) (fun h => by cases h)
    (fun w hw => ?_) hpieces, hre, fun base => spares_reattribute hre fun k _ => hfresh k⟩
  · rw [attributePairs, hattributes, List.map_append, List.map_singleton, hattr, hname]
    refine congrArg (· ++ _) (List.map_congr_left fun b hb => ?_)
    rw [hre.attr b fun hba => hfresh n (hba ▸ hb)]
  · rw [hattributes, List.mem_append, List.mem_singleton]
    exact or_iff_left hb
  · cases hw
    rw [hattributes, hattr]
    exact ⟨by simp, rfl⟩

end Attribute

section Content

variable {last : Option Value} {content : Option (List Plant)} {new : List Plant}

/-- A piece stays loose if the content of a node that is not in it is changed. -/
theorem loose_rewritten (g : d.Ready root ps pieces entries) (hr : Rewritten d d' n new)
    (hpieces : ∀ x ∈ pieces, ¬ Within x.1.root? x.2 n) : ∀ x ∈ pieces, d'.Loose x.1 x.2 := by
  intro x hx
  have hx' := g.loose x hx
  refine hx'.congr (fun k hk => hr.unchanged (hx'.has hk) ?_) fun k hk hnone => ?_
  · rintro rfl
    exact hpieces x hx hk
  · refine hr.parent? k (hx'.has (.inr (mem_idsAll_of_mem_map ?_))) hnone
    rw [(hx'.single k hk).1]
    exact List.mem_singleton_self k

/-- A node outside gets other content. -/
theorem rewritten (g : d.Ready none [] pieces entries) (hr : Rewritten d d' n new)
    (hpieces : ∀ x ∈ pieces, ¬ Within x.1.root? x.2 n) : d'.Ready none [] pieces entries where
  sound := hr.sound
  bears := ⟨fun p hp => by (cases hp), fun q hq => by (cases hq)⟩
  rooted p hp := by cases hp
  top _ q hq := by cases hq
  loose := g.loose_rewritten hr hpieces
  apart := g.apart
  aside := g.aside
  supports e he := (g.supports e he).rewritten hr
  separate := g.separate
  hidden := g.hidden

/-- An element gets other content. -/
theorem fill (last' : Option Value) (content' : Option (List Plant))
    (g : d.Ready root ps pieces ((.text n last, .text m content) :: entries))
    (hr : Rewritten d d' n new) (hroot : root ≠ some n)
    (hpieces : ∀ x ∈ pieces, ¬ Within x.1.root? x.2 n) :
    d'.Ready root (Plant.graftAll (Plant.fill n new) ps) pieces
      ((.text n last', .text m content') :: entries) := by
  obtain ⟨rfl, hhas, helement⟩ := g.supports _ (List.mem_cons_self ..)
  have hseparate := List.pairwise_cons.1 g.separate
  have hunchanged : ∀ k, d.Has k → k ≠ n → Unchanged d d' k := fun k hk hkn =>
    hr.unchanged hk hkn
  refine ⟨hr.sound, ?_, fun p hp => hr.has (g.rooted p hp), fun hnone q hq => ?_,
    g.loose_rewritten hr hpieces, g.apart, fun x hx k hk hw => ?_,
    List.forall_mem_cons.2 ⟨?_, fun e he => ?_⟩, List.pairwise_cons.2 ⟨fun e he => ?_, hseparate.2⟩,
    fun c k hc => ?_⟩
  · refine g.bears.fill hroot (fun k hk hkn => hunchanged k (g.has hk) hkn) (hr.has hhas)
      (hr.kind hhas) (leaf?_of_isElement helement) ?_ hr.row hr.stand
    exact hr.pairs hhas
  · have htops : (Plant.graftAll (Plant.fill n new) ps).map Plant.id = ps.map Plant.id :=
      tops_graftAll fun r => by cases r <;> rfl
    obtain ⟨r, hr', hid⟩ := List.mem_map.1 (htops ▸ List.mem_map_of_mem hq)
    rw [← hid]
    exact hr.parent? _ (g.has (.inr (Plant.id_mem_idsAll hr'))) (g.top hnone r hr')
  · exact (within_fill hw).elim (g.aside x hx k hk) fun hm => hr.fresh k hm ((g.loose x hx).has hk)
  · exact ⟨rfl, hr.has hhas, by rw [isElement, hr.kind hhas]; exact helement⟩
  · exact (g.supports e (List.mem_cons_of_mem _ he)).rewritten hr
  · have hsep := hseparate.1 e he
    obtain ⟨b, s⟩ := e
    cases b <;> exact hsep
  · rcases List.mem_cons.1 hc with hc | hc
    · cases hc
    · have hhidden := g.hidden c k (List.mem_cons_of_mem _ hc)
      have hhas' := (g.supports _ (List.mem_cons_of_mem _ hc)).2.1
      exact ⟨fun hw => (within_fill hw).elim hhidden.1 fun hm => hr.fresh _ hm hhas', hhidden.2⟩

theorem spares_fill (hr : Rewritten d d' n new) (hsub : ∀ m, base.Has m → d.Has m)
    (hn : ¬ base.Has n) : Spares base d d' where
  nodes_le := hr.nodes
  attributes_le := Nat.le_of_eq hr.attributes.symm
  kind _ hm := hr.kind hm
  same m hm := by
    refine hr.unchanged (hsub m hm) ?_
    rintro rfl
    exact hn hm
  loose m hm hnone := hr.parent? m (hsub m hm) hnone
  attr b _ := hr.attr b
  notices := hr.notices

end Content

/-! ### Steps elsewhere -/

theorem keeps (g : d.Ready root ps pieces entries) (h : Keeps d d' nodes) (hs : d'.Sound)
    (hroot : ∀ p, root = some p → p ∈ nodes) (hps : root = none → ∀ q ∈ ps, q.id ∈ nodes)
    (hpieces : ∀ x ∈ pieces, x.1.held ⊆ nodes) (hentries : ∀ e ∈ entries, e.1.held ⊆ nodes) :
    d'.Ready root ps pieces entries where
  sound := hs
  bears := h.bears g.bears (fun p hp => ⟨g.rooted p hp, .root (hroot p hp)⟩) fun hnone q hq =>
    .root (hps hnone q hq)
  rooted p hp := h.has (g.rooted p hp)
  top hnone q hq := h.loose _ (g.has (.inr (Plant.id_mem_idsAll hq))) (g.top hnone q hq)
  loose x hx := (g.loose x hx).keeps h (hpieces x hx)
  apart := g.apart
  aside := g.aside
  supports e he := (g.supports e he).keeps h g.sound.owned (hentries e he)
  separate := g.separate
  hidden := g.hidden

end Ready

/-- Some pieces and bindings are made of what a document did not have. -/
structure Fresh (base : Document) (pieces : List (Block × List Plant))
    (entries : List (Binding × Spot)) : Prop where
  nodes : ∀ x ∈ pieces, ∀ n, Within x.1.root? x.2 n → ¬ base.Has n
  bindings : ∀ e ∈ entries, e.1.IsNew base
  places : ∀ e ∈ entries, ¬ base.Has e.2.place

namespace Ready

/-- A binding has nothing in common with those that are made later. -/
theorem separate_of_fresh {e e' : Binding × Spot} (hs : base.Supports e) (hs' : d.Supports e')
    (hnew : e'.1.IsNew base) (hplace : ¬ base.Has e'.2.place) : Separate e' e := by
  obtain ⟨b, s⟩ := e
  obtain ⟨b', s'⟩ := e'
  cases b <;> cases s <;> try exact False.elim hs
  all_goals cases b' <;> cases s' <;> try exact False.elim hs'
  all_goals try trivial
  case child.child.child.child c n plants c' n' plants' =>
    exact fun (ht : c'.text = c.text) => hnew (ht ▸ hs.2.1)
  case attr.attr.attr.attr k a attached last n name v k' a' attached' last' n' name' v' =>
    refine ⟨fun ha => hnew (ha ▸ hs.2.2.2.1), fun hn => absurd ?_ hplace⟩
    show base.Has n'
    rw [hn, ← hs.1]
    exact hs.2.1

/-- What has been made since is added. -/
theorem append (g : base.Ready root ps pieces entries) (g₁ : d.Ready root ps pieces entries)
    (g₂ : d.Ready none [] pieces' entries') (hf : Fresh base pieces' entries') :
    d.Ready root ps (pieces' ++ pieces) (entries' ++ entries) where
  sound := g₁.sound
  bears := g₁.bears
  rooted := g₁.rooted
  top := g₁.top
  loose x hx := (List.mem_append.1 hx).elim (g₂.loose x) (g₁.loose x)
  apart := List.pairwise_append.2 ⟨g₂.apart, g₁.apart, fun x hx y hy n hn hn' =>
    hf.nodes x hx n hn ((g.loose y hy).has hn')⟩
  aside x hx n hn hw :=
    (List.mem_append.1 hx).elim (fun hx => hf.nodes x hx n hn (g.has hw)) fun hx =>
      g.aside x hx n hn hw
  supports e he := (List.mem_append.1 he).elim (g₂.supports e) (g₁.supports e)
  separate := List.pairwise_append.2 ⟨g₂.separate, g₁.separate, fun e' he' e he =>
    separate_of_fresh (g.supports e he) (g₂.supports e' he') (hf.bindings e' he') (hf.places e' he')⟩
  hidden c n hc := by
    rcases List.mem_append.1 hc with hc | hc
    · have hnew : ¬ base.Has c.text := hf.bindings _ hc
      refine ⟨fun hw => hnew (g.has hw), fun x hx hw => ?_⟩
      rcases List.mem_append.1 hx with hx | hx
      · exact (g₂.hidden c n hc).2 x hx hw
      · exact hnew ((g.loose x hx).has hw)
    · obtain ⟨hps, hpieces⟩ := g.hidden c n hc
      have hhas := (g.supports _ hc).2.1
      refine ⟨hps, fun x hx hw => ?_⟩
      rcases List.mem_append.1 hx with hx | hx
      · exact hf.nodes x hx _ hw hhas
      · exact hpieces x hx hw

theorem perm (g : d.Ready root ps pieces entries) (hp : pieces.Perm pieces')
    (he : entries.Perm entries') : d.Ready root ps pieces' entries' where
  sound := g.sound
  bears := g.bears
  rooted := g.rooted
  top := g.top
  loose x hx := g.loose x (hp.mem_iff.2 hx)
  apart := hp.pairwise g.apart fun {_ _} h n hn hn' => h n hn' hn
  aside x hx := g.aside x (hp.mem_iff.2 hx)
  supports e h := g.supports e (he.mem_iff.2 h)
  separate := he.pairwise g.separate fun {_ _} h => h.symm
  hidden c n hc := ⟨(g.hidden c n (he.mem_iff.2 hc)).1, fun x hx =>
    (g.hidden c n (he.mem_iff.2 hc)).2 x (hp.mem_iff.2 hx)⟩

/-- A binding remembers something else. -/
theorem replace {e' : Binding × Spot} (g : d.Ready root ps pieces (e :: entries))
    (hs : d.Supports e') (hseparate : ∀ e'', Separate e e'' → Separate e' e'')
    (hhidden : ∀ c n, e' = (.child c, .child n []) →
      ∃ c' n', e = (.child c', .child n' []) ∧ c.text = c'.text) :
    d.Ready root ps pieces (e' :: entries) := by
  have hsep := List.pairwise_cons.1 g.separate
  refine ⟨g.sound, g.bears, g.rooted, g.top, g.loose, g.apart, g.aside,
    List.forall_mem_cons.2 ⟨hs, fun e he => g.supports e (List.mem_cons_of_mem _ he)⟩,
    List.pairwise_cons.2 ⟨fun e he => hseparate e (hsep.1 e he), hsep.2⟩, fun c n hc => ?_⟩
  rcases List.mem_cons.1 hc with hc | hc
  · obtain ⟨c', n', rfl, htext⟩ := hhidden c n hc.symm
    rw [htext]
    exact g.hidden c' n' (List.mem_cons_self ..)
  · exact g.hidden c n (List.mem_cons_of_mem _ hc)

/-- The place that has been filled becomes a piece. -/
theorem leave (g : d.Ready b.root? ps pieces entries) (hb : d.Loose b ps) :
    d.Ready none [] ((b, ps) :: pieces) entries := by
  refine ⟨g.sound, ⟨fun p hp => ?_, fun q hq => ?_⟩, fun p hp => ?_, fun _ q hq => ?_,
    List.forall_mem_cons.2 ⟨hb, g.loose⟩, List.pairwise_cons.2 ⟨fun x hx n hn hw =>
    g.aside x hx n hw hn, g.apart⟩, fun x _ n _ hw => ?_, g.supports, g.separate, fun c n hc => ?_⟩
  · cases hp
  · cases hq
  · cases hp
  · cases hq
  · rcases hw with hw | hw
    · cases hw
    · rw [Plant.idsAll_nil] at hw
      cases hw
  · obtain ⟨hps, hpieces⟩ := g.hidden c n hc
    refine ⟨fun hw => ?_, List.forall_mem_cons.2 ⟨hps, hpieces⟩⟩
    rcases hw with hw | hw
    · cases hw
    · rw [Plant.idsAll_nil] at hw
      cases hw

/-- A loose piece is all that is looked at besides the others. -/
theorem enter (g : d.Ready none [] ((b, ps) :: pieces) entries) : d.Ready b.root? ps pieces entries where
  sound := g.sound
  bears := (g.loose _ (List.mem_cons_self ..)).bears
  rooted p hp := (g.loose _ (List.mem_cons_self ..)).has (.inl hp)
  top hr q hq := by
    rw [(g.loose _ (List.mem_cons_self ..)).parent? g.sound.forest (List.mem_map_of_mem hq)]
    exact hr
  loose x hx := g.loose x (List.mem_cons_of_mem _ hx)
  apart := (List.pairwise_cons.1 g.apart).2
  aside x hx n hn hw := (List.pairwise_cons.1 g.apart).1 x hx n hw hn
  supports := g.supports
  separate := g.separate
  hidden c n hc := List.forall_mem_cons.1 (g.hidden c n hc).2

end Ready

end Document

end LiveMarkup
