import LiveMarkup.Proofs.Document.Growing
import LiveMarkup.Proofs.Rendering.Withdrawal
/-!
# Exchanging what stands in front of a placeholder

Some pieces stand side by side in front of a placeholder, and others stand nowhere yet (`Document.Lineup`).
When the binding at the placeholder is given blocks of both sorts, in an order in which no block that stays has
to pass another one, these come to stand there, and all else is as it was (`Document.Lineup.exchange`): what
the container comes to is changed by a graft that takes the old pieces away and puts the new ones in front of
the placeholder (`Plant.exchange`).
-/

namespace LiveMarkup

namespace Plant

variable {n : NodeId} {old : List NodeId} {ps flat new new' : List Plant}

/-- Takes some nodes away, and puts some plants in front of the node `n`. -/
def exchange (n : NodeId) (old : List NodeId) (new : List Plant) (q : Plant) : List Plant :=
  if q.id ∈ old then [] else before n new q

theorem respects_exchange (n : NodeId) (old : List NodeId) (h : AlikeAll new new') :
    Respects (exchange n old new) (exchange n old new') := by
  intro p q hpq
  rw [exchange, exchange, before, before, hpq.id_eq]
  split
  · trivial
  · split
    · exact h.append (.single hpq)
    · exact .single hpq

/-- What has been put in front of a node is exchanged. -/
theorem graftAll_exchange_before (hflat : ∀ q ∈ flat, q.id ∈ old) (hold : ∀ m ∈ idsAll ps, m ∉ old) :
    graftAll (exchange n old new) (graftAll (before n flat) ps) = graftAll (before n new) ps := by
  have hgone : graftAll (exchange n old new) flat = [] := by
    refine List.eq_nil_iff_forall_not_mem.2 fun r hr => ?_
    obtain ⟨q, hq, hr⟩ := mem_graftAll.1 hr
    have hid := hflat q hq
    cases q <;>
    · rw [graft, exchange, if_pos (by exact hid)] at hr
      cases hr
  have hone : ∀ q r : Plant, q.id ∈ idsAll ps → q.graft (exchange n old new) = exchange n old new r →
      r.id = q.id → graftAll (exchange n old new) (before n flat q) = before n new r := by
    intro q r hq hgraft hid
    rw [exchange, hid, if_neg (hold _ hq)] at hgraft
    rw [before]
    split
    · rw [graftAll_append, graftAll_cons, graftAll_nil, hgone, hgraft, List.append_nil, List.nil_append]
    · rw [graftAll_cons, graftAll_nil, hgraft, List.append_nil]
  exact graftAll_graftAll (fun hid => hone _ _ hid rfl rfl) (fun hid => hone _ _ hid rfl rfl)
    fun hid => hone _ _ hid rfl rfl

/-- No other nodes come in. -/
theorem mem_idsAll_exchange {m : NodeId} (h : m ∈ idsAll (graftAll (exchange n old new) ps)) :
    m ∈ idsAll ps ∨ m ∈ idsAll new := by
  refine mem_idsAll_graftAll (E := (· ∈ idsAll new)) (fun q k hk => ?_) h
  rw [exchange] at hk
  split at hk
  · cases hk
  · rw [before] at hk
    split at hk
    · rw [idsAll_append, List.mem_append, idsAll_cons, idsAll_nil, List.append_nil] at hk
      exact hk.symm
    · rw [idsAll_cons, idsAll_nil, List.append_nil] at hk
      exact .inl hk

end Plant

namespace Document

variable {d d' : Document} {c p m : NodeId} {targets nodes : List NodeId}

/-- Moves to some nodes do not matter to another node if all that is moved comes from those or from
nowhere. -/
theorem Shifts.children_eq (h : d.Shifts d' targets) (hmoved : Moved d d' nodes) (hf : d.Forest)
    (hnodes : ∀ k ∈ nodes, ∀ q, d.parent? k = some q → q ∈ targets) (hm : m ∉ targets) :
    d'.children m = d.children m := by
  have hold : ∀ k ∈ d.children m, k ∉ nodes := fun k hk hkn =>
    hm (hnodes k hkn m (hf.parent_of_mem hk))
  have hnew : ∀ k ∈ d'.children m, k ∉ nodes := by
    intro k hk hkn
    have hparent := hmoved.forest.parent_of_mem hk
    rcases h.parent? k with he | he | ⟨q, hq, he⟩
    · exact hm (hnodes k hkn m (he ▸ hparent))
    · rw [hparent] at he
      cases he
    · rw [hparent] at he
      exact hm (Option.some.inj he ▸ hq)
  have hfilter := hmoved.children m
  rwa [List.filter_eq_self.2 fun k hk => by simpa using hnew k hk,
    List.filter_eq_self.2 fun k hk => by simpa using hold k hk] at hfilter

theorem idsAll_flatMap (pieces : List (Block × List Plant)) :
    Plant.idsAll (pieces.flatMap Prod.snd) = pieces.flatMap fun y => Plant.idsAll y.2 := by
  induction pieces with
  | nil => rfl
  | cons y rest ih => rw [List.flatMap_cons, Plant.idsAll_append, ih, List.flatMap_cons]

variable {ps front behind : List Plant} {q : Plant} {pieces others new rest : List (Block × List Plant)}
  {entries : List (Binding × Spot)} {b : ChildBinding}

/-- In the content of a node, some pieces stand side by side in front of a node, and nothing is left of them
in their fragments. Others stand nowhere yet. -/
structure Lineup (d : Document) (c : NodeId) (ps : List Plant) (others : List (Block × List Plant))
    (entries : List (Binding × Spot)) (front : List Plant) (pieces : List (Block × List Plant)) (q : Plant)
    (behind : List Plant) : Prop where
  ready : d.Ready (some c) ps others entries
  row : Plant.Row ps (front ++ pieces.flatMap Prod.snd ++ q :: behind)
  spans : ∀ y ∈ pieces ++ others, y.1.Spans (y.2.map Plant.id)
  emptied : ∀ y ∈ pieces, ∀ f ∈ y.1.fragments, d.Has f ∧ d.isFragment f = true ∧ d.children f = []
  nodup : (pieces.flatMap fun y => y.1.fragments).Nodup

namespace Lineup

theorem forest (h : d.Lineup c ps others entries front pieces q behind) : d.Forest :=
  h.ready.sound.forest

theorem mem_ids (h : d.Lineup c ps others entries front pieces q behind) : q.id ∈ Plant.idsAll ps :=
  h.row.ids_subset (Plant.id_mem_idsAll (by simp))

theorem mem_ids_of_piece (h : d.Lineup c ps others entries front pieces q behind)
    {y : Block × List Plant} (hy : y ∈ pieces) (hm : m ∈ Plant.idsAll y.2) : m ∈ Plant.idsAll ps := by
  refine h.row.ids_subset ?_
  obtain ⟨r, hr, hm⟩ := Plant.mem_idsAll.1 hm
  exact Plant.mem_idsAll.2 ⟨r, by simp only [List.mem_append, List.mem_flatMap]; exact .inl (.inr ⟨y, hy, hr⟩), hm⟩

/-- All that is in the row stands below one node. -/
theorem exists_parent (h : d.Lineup c ps others entries front pieces q behind) :
    ∃ p, d.Bears (some p) (front ++ pieces.flatMap Prod.snd ++ q :: behind) ∧ d.parent? q.id = some p ∧
      Within (some c) ps p := by
  obtain ⟨p, hp⟩ := h.ready.bears.of_row h.row
  have hparent : d.parent? q.id = some p := by
    refine h.forest.parent_of_mem ?_
    rw [hp.row p rfl]
    exact List.mem_map_of_mem (by simp)
  exact ⟨p, hp, hparent, h.ready.parent_within h.mem_ids hparent⟩

theorem holds (h : d.Lineup c ps others entries front pieces q behind) :
    ∀ y ∈ pieces ++ others, d.Holds y.1 (y.2.map Plant.id) := by
  intro y hy
  rcases List.mem_append.1 hy with hy' | hy'
  · refine ⟨h.spans y hy, fun m hm => h.ready.bears.has (h.mem_ids_of_piece hy' (mem_idsAll_of_mem_map hm)),
      fun m hm => h.ready.bears.solid (h.mem_ids_of_piece hy' (mem_idsAll_of_mem_map hm)),
      fun f hf => (h.emptied y hy' f hf).1, fun f hf => (h.emptied y hy' f hf).2.1⟩
  · exact (h.ready.loose y hy').holds (h.spans y hy)

/-- The nodes of a piece are no fragments. -/
theorem solid (h : d.Lineup c ps others entries front pieces q behind) {y : Block × List Plant}
    (hy : y ∈ pieces ++ others) (hm : m ∈ Plant.idsAll y.2) : d.isFragment m = false :=
  (List.mem_append.1 hy).elim (fun hy => h.ready.bears.solid (h.mem_ids_of_piece hy hm))
    fun hy => (h.ready.loose y hy).bears.solid hm

/-- The fragment of a piece is one, also of a piece that stands nowhere yet. -/
theorem isFragment (h : d.Lineup c ps others entries front pieces q behind) {y : Block × List Plant}
    (hy : y ∈ pieces ++ others) (hm : y.1.root? = some m) : d.isFragment m = true :=
  (h.holds y hy).fragment m (mem_root_iff.2 hm)

/-- The fragment of a piece that stands nowhere yet is not empty. -/
theorem ne_nil (h : d.Lineup c ps others entries front pieces q behind) {y : Block × List Plant}
    (hy : y ∈ others) (hm : y.1.root? = some m) : d.children m ≠ [] := by
  rw [(h.ready.loose y hy).bears.row m hm, (h.holds y (List.mem_append_right _ hy)).eq_first_cons]
  exact List.cons_ne_nil _ _

/-- No two pieces have anything in common. -/
theorem apart (h : d.Lineup c ps others entries front pieces q behind) :
    (pieces ++ others).Pairwise fun x y => ∀ n, Within x.1.root? x.2 n → ¬ Within y.1.root? y.2 n := by
  refine List.pairwise_append.2 ⟨?_, h.ready.apart, fun x hx y hy m hmx hmy => ?_⟩
  · obtain ⟨p, hp, -⟩ := h.exists_parent
    have hids : (pieces.flatMap fun y => Plant.idsAll y.2).Nodup := by
      have hnd := (List.nodup_cons.1 (hp.nodup h.forest)).2
      rw [Plant.idsAll_append, Plant.idsAll_append] at hnd
      rw [← idsAll_flatMap]
      exact hnd.sublist ((List.sublist_append_right ..).trans (List.sublist_append_left ..))
    have hboth := (List.nodup_flatMap.1 h.nodup).2.and (List.nodup_flatMap.1 hids).2
    refine hboth.imp_of_mem fun {x y} hx hy hxy m hmx hmy => ?_
    have hx' := List.mem_append_left others hx
    have hy' := List.mem_append_left others hy
    rcases hmx with hmx | hmx <;> rcases hmy with hmy | hmy
    · exact hxy.1 (mem_root_iff.2 hmx) (mem_root_iff.2 hmy)
    · exact Bool.false_ne_true ((h.solid hy' hmy).symm.trans (h.isFragment hx' hmx))
    · exact Bool.false_ne_true ((h.solid hx' hmx).symm.trans (h.isFragment hy' hmy))
    · exact hxy.2 hmx hmy
  · rcases hmx with hmx | hmx
    · rcases hmy with hmy | hmy
      · exact h.ne_nil hy hmy (h.emptied x hx m (mem_root_iff.2 hmx)).2.2
      · exact Bool.false_ne_true ((h.solid (List.mem_append_right _ hy) hmy).symm.trans
          (h.isFragment (List.mem_append_left _ hx) hmx))
    · exact h.ready.aside y hy m hmy (.inr (h.mem_ids_of_piece hx hmx))

/-- The node in which the row is is in none of the pieces. -/
theorem outside (h : d.Lineup c ps others entries front pieces q behind)
    (hp : d.Bears (some p) (front ++ pieces.flatMap Prod.snd ++ q :: behind)) (hw : Within (some c) ps p) :
    ∀ y ∈ pieces ++ others, ¬ Within y.1.root? y.2 p := by
  intro y hy hyp
  rcases List.mem_append.1 hy with hy' | hy'
  · rcases hyp with hyp | hyp
    · have hempty := (h.emptied y hy' p (mem_root_iff.2 hyp)).2.2
      rw [hp.row p rfl] at hempty
      simp at hempty
    · refine (List.nodup_cons.1 (hp.nodup h.forest)).1 ?_
      rw [Plant.idsAll_append, Plant.idsAll_append, idsAll_flatMap]
      exact List.mem_append_left _ (List.mem_append_right _ (List.mem_flatMap.2 ⟨y, hy', hyp⟩))
  · exact h.ready.aside y hy' p hyp hw

/-- No two pieces have one block. -/
theorem nodup_blocks (h : d.Lineup c ps others entries front pieces q behind) :
    ((pieces ++ others).map Prod.fst).Nodup := by
  refine List.pairwise_map.2 (h.apart.imp_of_mem fun {x y} hx hy hxy he => ?_)
  exact hxy _ (h.holds x hx).within_first (he ▸ (h.holds y hy).within_first)

theorem nodup_fragments (h : d.Lineup c ps others entries front pieces q behind) :
    ((pieces ++ others).flatMap fun y => y.1.fragments).Nodup := by
  refine List.nodup_flatMap.2 ⟨fun y _ => ?_, h.apart.imp fun hxy f hf hf' =>
    hxy f (.inl (mem_root_iff.1 hf)) (.inl (mem_root_iff.1 hf'))⟩
  cases y.1 with
  | single n => exact List.nodup_nil
  | group g => exact List.nodup_singleton _

/-- Where a binding at the node puts blocks of the pieces. -/
theorem reconcile (h : d.Lineup c ps others entries front pieces q behind)
    (hp : d.Bears (some p) (front ++ pieces.flatMap Prod.snd ++ q :: behind)) (hw : Within (some c) ps p)
    (hplaceholder : b.placeholder = q.id) (hentries : b.entries = pieces.map Prod.fst)
    (hperm : (pieces ++ others).Perm (new ++ rest))
    (horder : common (pieces.map Prod.fst) (new.map Prod.fst)
      = common (new.map Prod.fst) (pieces.map Prod.fst)) :
    ∃ d', b.showBlocks d (new.map Prod.fst) = ({ b with entries := new.map Prod.fst }, d') ∧
      Moved d d' ((pieces ++ others).flatMap fun y => y.2.map Plant.id) ∧
      d.Shifts d' (p :: (pieces ++ others).flatMap fun y => y.1.fragments) ∧
      d'.children p = front.map Plant.id ++ new.flatMap (fun y => y.2.map Plant.id)
        ++ q.id :: behind.map Plant.id ∧
      (∀ y ∈ new, ∀ f ∈ y.1.fragments, d'.children f = []) ∧
      (new.flatMap fun y => y.1.fragments).Nodup := by
  have hrow := hp.row p rfl
  have hparent : d.parent? b.placeholder = some p := by
    rw [hplaceholder]
    refine h.forest.parent_of_mem ?_
    rw [hrow]
    exact List.mem_map_of_mem (by simp)
  have hrow' : d.children p = front.map Plant.id ++ pieces.flatMap (fun y => y.2.map Plant.id)
      ++ q.id :: behind.map Plant.id := by
    rw [hrow]
    simp [List.map_flatMap]
  obtain ⟨S, rfl, rfl, hblocks, hspan, hahead, hbehind, hS⟩ := exists_stage_beside h.forest
    (h.ready.has hw) (h.forest.inner hparent) h.holds h.apart (h.outside hp hw) hrow'
    (fun y hy f hf => (h.emptied y hy f hf).2.2) h.ready.loose
  have hnew : ∀ y ∈ new, y ∈ pieces ++ others := fun y hy =>
    hperm.mem_iff.2 (List.mem_append_left _ hy)
  have hnd : (new.map Prod.fst).Nodup := by
    have hall := (hperm.map Prod.fst).nodup_iff.1 h.nodup_blocks
    rw [List.map_append] at hall
    exact (List.nodup_append.1 hall).1
  have hsub : ∀ e ∈ new.map Prod.fst, e ∈ S.blocks := by
    rw [hblocks]
    exact List.forall_mem_map.2 fun y hy => List.mem_map_of_mem (hnew y hy)
  have hshows := shows_reconcile hS hnd hsub
  rw [List.filter_eq_self.2 fun e he => by
    simpa using leftover_of_same_order hS hnd hsub horder e he] at hshows
  have hsite : S.site = b.site S.container := by
    rw [Stage.site, ChildBinding.site, hbehind, hplaceholder]
    rfl
  refine ⟨(S.origin.reconcile S.site (pieces.map Prod.fst) (new.map Prod.fst)).document, ?_, ?_, ?_, ?_, ?_,
    ?_⟩
  · rw [ChildBinding.showBlocks, hparent]
    dsimp only
    rw [← hsite, hentries, (reconcile_exact_iff hS hnd hsub).1]
  · have hsince := hshows.since
    rw [hblocks, List.flatMap_map] at hsince
    rwa [List.flatMap_congr hspan] at hsince
  · have hfragments : ∀ y ∈ pieces ++ others, y.1.fragments
        ⊆ S.container :: (pieces ++ others).flatMap fun y => y.1.fragments := fun y hy f hf =>
      List.mem_cons_of_mem _ (List.mem_flatMap.2 ⟨y, hy, hf⟩)
    have hshifting : S.site.Shifting
        (fun e => e.fragments ⊆ S.container :: (pieces ++ others).flatMap fun y => y.1.fragments)
        (S.container :: (pieces ++ others).flatMap fun y => y.1.fragments) :=
      ⟨List.mem_cons_self .., fun e he a d => shifts_access he d a⟩
    exact S.origin.shifts_reconcile hshifting
      (List.forall_mem_map.2 fun y hy => hfragments y (List.mem_append_left _ hy))
      (List.forall_mem_map.2 fun y hy => hfragments y (hnew y hy))
  · rw [hshows.children, S.part_nil, hahead, hbehind, List.flatMap_map,
      List.flatMap_congr fun y hy => hspan y (hnew y hy)]
  · intro y hy f hf
    rw [hshows.kept y.1 (List.mem_map_of_mem hy) f hf, Stage.remainder_of_not_mem List.not_mem_nil]
  · have hall := (hperm.flatMap_right fun y => y.1.fragments).nodup_iff.1 h.nodup_fragments
    rw [List.flatMap_append] at hall
    exact (List.nodup_append.1 hall).1

section Moved

variable (h : d.Lineup c ps others entries front pieces q behind)
  (hp : d.Bears (some p) (front ++ pieces.flatMap Prod.snd ++ q :: behind)) (hw : Within (some c) ps p)
  (hmoved : Moved d d' ((pieces ++ others).flatMap fun y => y.2.map Plant.id))
  (hshifts : d.Shifts d' (p :: (pieces ++ others).flatMap fun y => y.1.fragments))

include h in
/-- Nothing that is in place is the fragment of a piece. -/
theorem root?_ne (hm : Within (some c) ps m ∨ ∃ y ∈ pieces ++ others, m ∈ Plant.idsAll y.2) :
    ∀ y ∈ pieces ++ others, y.1.root? ≠ some m := by
  have hsolid : d.isFragment m = false → ∀ y ∈ pieces ++ others, y.1.root? ≠ some m := fun hs y hy hroot =>
    Bool.false_ne_true (hs.symm.trans (h.isFragment hy hroot))
  rcases hm with (hm | hm) | ⟨y, hy, hm⟩
  · obtain rfl := Option.some.inj hm
    intro y hy hroot
    rcases List.mem_append.1 hy with hy | hy
    · -- the fragment is empty, but something is below the node
      have hrow := h.ready.bears.row c rfl
      rw [(h.emptied y hy c (mem_root_iff.2 hroot)).2.2] at hrow
      have hmem := h.mem_ids
      rw [List.map_eq_nil_iff.1 hrow.symm] at hmem
      cases hmem
    · exact h.ready.aside y hy c (.inl hroot) (.inl rfl)
  · exact hsolid (h.ready.bears.solid hm)
  · exact hsolid (h.solid hy hm)

include h hp hmoved hshifts

/-- No other rows are touched. -/
theorem untouched (hmp : m ≠ p) (hm : Within (some c) ps m ∨ ∃ y ∈ pieces ++ others, m ∈ Plant.idsAll y.2) :
    d'.children m = d.children m := by
  refine hshifts.children_eq hmoved h.forest (fun k hk a ha => ?_) fun hmem => ?_
  · -- what is moved comes from the row, from a fragment, or from nowhere
    obtain ⟨y, hy, hk⟩ := List.mem_flatMap.1 hk
    rcases List.mem_append.1 hy with hy' | hy'
    · have hkp : d.parent? k = some p := by
        refine h.forest.parent_of_mem ?_
        rw [hp.row p rfl, List.map_append, List.map_append, List.map_flatMap]
        exact List.mem_append_left _ (List.mem_append_right _ (List.mem_flatMap.2 ⟨y, hy', hk⟩))
      rw [hkp] at ha
      exact Option.some.inj ha ▸ List.mem_cons_self ..
    · rw [(h.ready.loose y hy').parent? h.forest hk] at ha
      exact List.mem_cons_of_mem _ (List.mem_flatMap.2 ⟨y, hy, mem_root_iff.2 ha⟩)
  · rcases List.mem_cons.1 hmem with rfl | hmem
    · exact hmp rfl
    · obtain ⟨y, hy, hmy⟩ := List.mem_flatMap.1 hmem
      exact h.root?_ne hm y hy (mem_root_iff.1 hmy)

include hw

/-- The pieces stand as they did. -/
theorem stands {y : Block × List Plant} (hy : y ∈ pieces ++ others) {r : Plant} (hr : r ∈ y.2) :
    d'.Stands r := by
  have hstand : d.Stands r := by
    rcases List.mem_append.1 hy with hy' | hy'
    · exact hp.stand r (by simp only [List.mem_append, List.mem_flatMap]; exact .inl (.inr ⟨y, hy', hr⟩))
    · exact (h.ready.loose y hy').bears.stand r hr
  refine hstand.congr fun m hm => ?_
  have hm' : m ∈ Plant.idsAll y.2 := Plant.mem_idsAll.2 ⟨r, hr, hm⟩
  refine hmoved.relinked.unchanged (h.untouched hp hmoved hshifts ?_ (.inr ⟨y, hy, hm'⟩))
  rintro rfl
  exact h.outside hp hw y hy (.inr hm')

/-- What the container comes to is changed by a graft. -/
theorem bears (hnew : ∀ y ∈ new, y ∈ pieces ++ others)
    (hrow : d'.children p = front.map Plant.id ++ new.flatMap (fun y => y.2.map Plant.id)
      ++ q.id :: behind.map Plant.id) :
    d'.Bears (some c) (Plant.graftAll (Plant.exchange q.id (pieces.flatMap fun y => y.2.map Plant.id)
      (new.flatMap Prod.snd)) ps) := by
  let F : NodeId → List NodeId := fun m =>
    if m ∈ pieces.flatMap (fun y => y.2.map Plant.id) then []
    else if m = q.id then new.flatMap (fun y => y.2.map Plant.id) ++ [m] else [m]
  refine h.ready.bears.relink (F := F) hmoved.relinked (fun r => ?_) (fun r t ht => ?_) fun a ha => ?_
  · simp only [F, Plant.exchange, Plant.before]
    split
    · rfl
    · split
      · rw [List.map_append, List.map_flatMap]
        rfl
      · rfl
  · rw [Plant.exchange] at ht
    split at ht
    · cases ht
    · rw [Plant.before] at ht
      split at ht
      · rcases List.mem_append.1 ht with ht | ht
        · obtain ⟨y, hy, ht⟩ := List.mem_flatMap.1 ht
          exact .inr (h.stands hp hw hmoved hshifts (hnew y hy) ht)
        · exact .inl (List.mem_singleton.1 ht)
      · exact .inl (List.mem_singleton.1 ht)
  · have hrow₀ := hp.row p rfl
    rw [List.map_append, List.map_append, List.map_flatMap, List.map_cons] at hrow₀
    have hkeep : ∀ k, k ∉ pieces.flatMap (fun y => y.2.map Plant.id) → k ≠ q.id → F k = [k] :=
      fun k hk hkq => (if_neg hk).trans (if_neg hkq)
    by_cases hap : a = p
    · have hnd := h.forest.nodup p
      rw [hrow₀, List.nodup_append, List.nodup_append, List.nodup_cons] at hnd
      obtain ⟨⟨-, -, hfront⟩, ⟨hbehind, -⟩, hpieces⟩ := hnd
      have hq : q.id ∉ pieces.flatMap (fun y => y.2.map Plant.id) := fun hm =>
        hpieces _ (List.mem_append_right _ hm) _ (List.mem_cons_self ..) rfl
      have hgone : (pieces.flatMap fun y => y.2.map Plant.id).flatMap F = [] :=
        List.flatMap_eq_nil_iff.2 fun k hk => if_pos hk
      have hplace : F q.id = new.flatMap (fun y => y.2.map Plant.id) ++ [q.id] :=
        (if_neg hq).trans (if_pos rfl)
      rw [hap, hrow, hrow₀, List.flatMap_append, List.flatMap_append, List.flatMap_cons, hgone, hplace,
        flatMap_eq_self fun k hk => hkeep k (fun hm => hfront k hk k hm rfl) fun he =>
          hpieces k (List.mem_append_left _ hk) _ (List.mem_cons_self ..) he,
        flatMap_eq_self fun k hk => hkeep k
          (fun hm => hpieces k (List.mem_append_right _ hm) k (List.mem_cons_of_mem _ hk) rfl)
          fun he => hbehind (he ▸ hk)]
      simp
    · rw [h.untouched hp hmoved hshifts hap (.inl ha)]
      have hnot : ∀ k ∈ d.children a, k ∉ d.children p := fun k hk hkp =>
        hap (Option.some.inj ((h.forest.parent_of_mem hk).symm.trans (h.forest.parent_of_mem hkp)))
      refine (flatMap_eq_self fun k hk => hkeep k (fun hm => hnot k hk ?_) fun he => hnot k hk ?_).symm
      · rw [hrow₀]
        exact List.mem_append_left _ (List.mem_append_right _ hm)
      · rw [hrow₀, he]
        exact List.mem_append_right _ (List.mem_cons_self ..)

end Moved

/-- The binding at the node is given pieces of both sorts, in an order in which none that stays has to pass
another one. -/
theorem exchange (h : d.Lineup c ps others entries front pieces q behind) (hplaceholder : b.placeholder = q.id)
    (hentries : b.entries = pieces.map Prod.fst) (hperm : (pieces ++ others).Perm (new ++ rest))
    (horder : common (pieces.map Prod.fst) (new.map Prod.fst)
      = common (new.map Prod.fst) (pieces.map Prod.fst)) :
    ∃ d', b.showBlocks d (new.map Prod.fst) = ({ b with entries := new.map Prod.fst }, d') ∧ d.Grows d' ∧
      d'.Ready (some c) (Plant.graftAll (Plant.exchange q.id (pieces.flatMap fun y => y.2.map Plant.id)
        (new.flatMap Prod.snd)) ps) [] entries ∧
      (∀ y ∈ new, ∀ f ∈ y.1.fragments, d'.Has f ∧ d'.isFragment f = true ∧ d'.children f = []) ∧
      (new.flatMap fun y => y.1.fragments).Nodup := by
  obtain ⟨p, hp, hparent, hw⟩ := h.exists_parent
  obtain ⟨d', hshown, hmoved, hshifts, hrow, hempty, hnd⟩ :=
    h.reconcile hp hw hplaceholder hentries hperm horder
  have hr := hmoved.relinked
  have hnew : ∀ y ∈ new, y ∈ pieces ++ others := fun y hy =>
    hperm.mem_iff.2 (List.mem_append_left _ hy)
  -- a text that is not in use is in none of the pieces
  have hunused : ∀ a n, (.child a, .child n []) ∈ entries → ∀ y ∈ pieces ++ others, a.text ∉ Plant.idsAll y.2 := by
    intro a n ha y hy hm
    obtain ⟨hplants, hpieces⟩ := h.ready.hidden a n ha
    rcases List.mem_append.1 hy with hy | hy
    · exact hplants (.inr (h.mem_ids_of_piece hy hm))
    · exact hpieces y hy (.inr hm)
  have hready : d'.Ready (some c) (Plant.graftAll (Plant.exchange q.id
      (pieces.flatMap fun y => y.2.map Plant.id) (new.flatMap Prod.snd)) ps) [] entries := {
    sound := ⟨hmoved.forest, h.ready.sound.owned.relinked hr⟩
    bears := h.bears hp hw hmoved hshifts hnew hrow
    rooted := fun a ha => hr.has.2 (h.ready.rooted a ha)
    top := fun hnone => by cases hnone
    loose := List.forall_mem_nil _
    apart := .nil
    aside := List.forall_mem_nil _
    supports := fun e he => (h.ready.supports e he).relinked hr fun a n hae hnone => by
      rw [hmoved.parent? h.forest, hnone]
      intro hm
      obtain ⟨y, hy, hm⟩ := List.mem_flatMap.1 hm
      exact hunused a n (hae ▸ he) y hy (mem_idsAll_of_mem_map hm)
    separate := h.ready.separate
    hidden := fun a n ha => by
      refine ⟨fun hwithin => ?_, List.forall_mem_nil _⟩
      rcases hwithin with hroot | hm
      · exact (h.ready.hidden a n ha).1 (.inl hroot)
      · rcases Plant.mem_idsAll_exchange hm with hm | hm
        · exact (h.ready.hidden a n ha).1 (.inr hm)
        · rw [idsAll_flatMap] at hm
          obtain ⟨y, hy, hm⟩ := List.mem_flatMap.1 hm
          exact hunused a n ha y (hnew y hy) hm }
  refine ⟨d', hshown, hshifts.grows, hready, fun y hy f hf => ?_, hnd⟩
  have hholds := h.holds y (hnew y hy)
  exact ⟨hr.has.2 (hholds.has_fragment f hf), (hr.isFragment f).trans (hholds.fragment f hf), hempty y hy f hf⟩

end Lineup

end Document

end LiveMarkup
