import LiveMarkup.Document.View
import LiveMarkup.Proofs.Document.Growth
import Mathlib.Data.List.Perm.Subperm
/-!
# What happens to standing plants

In a forest no node stands twice (`Bears.nodup`), and the markup of a node is that of the plants that
stand in it (`Bears.content`). Each operation that does something to a plant grafts it: nodes are put
in front of a node (`Bears.insert`), a node is taken away (`Bears.remove`), a text is changed
(`Bears.say`), an element gets other attributes (`Bears.adorn`) or other content (`Bears.fill`).
-/

namespace LiveMarkup

namespace Document

open Markup (Tree)

variable {d d' : Document} {n m p a b : NodeId} {root : Option NodeId} {q : Plant}
  {ps new : List Plant}

/-! ### No node stands twice -/

/-- Of two nodes above a third one, one is above the other. -/
theorem Above.linear (h : d.Above n a) (h' : d.Above n b) : d.Above a b ∨ d.Above b a := by
  induction h with
  | self => exact .inl h'
  | @up m p _ hp ih =>
    rcases ih with ih | ih
    · rcases ih.eq_or_of_parent with rfl | ⟨r, hr, hrb⟩
      · exact .inr (.of_parent hp)
      · rw [hp] at hr
        cases hr
        exact .inl hrb
    · exact .inr (ih.up hp)

/-- Nothing is below two children of one node. -/
theorem Forest.eq_of_above (hf : d.Forest) (ha : d.parent? a = some p) (hb : d.parent? b = some p)
    (hna : d.Above n a) (hnb : d.Above n b) : a = b := by
  rcases hna.linear hnb with h | h
  · rcases h.eq_or_of_parent with rfl | ⟨r, hr, hrb⟩
    · rfl
    · rw [ha] at hr
      cases hr
      exact absurd hrb (hf.acyclic hb)
  · rcases h.eq_or_of_parent with rfl | ⟨r, hr, hra⟩
    · rfl
    · rw [hb] at hr
      cases hr
      exact absurd hra (hf.acyclic ha)

theorem Stands.above (hf : d.Forest) (h : d.Stands q) (hn : n ∈ q.ids) : d.Above n q.id := by
  induction h with
  | @element id tag children _ _ _ row _ ih =>
    rw [Plant.ids, List.mem_cons] at hn
    rcases hn with rfl | hn
    · exact .self
    · obtain ⟨c, hc, hn⟩ := Plant.mem_idsAll.1 hn
      exact (ih c hc hn).up (hf.parent_of_mem (row ▸ List.mem_map_of_mem hc))
  | text => exact List.mem_singleton.1 (by rwa [Plant.ids] at hn) ▸ .self
  | comment => exact List.mem_singleton.1 (by rwa [Plant.ids] at hn) ▸ .self

theorem nodup_of_row (hf : d.Forest) (hrow : d.children p = ps.map Plant.id)
    (hstand : ∀ q ∈ ps, d.Stands q) (hps : ∀ q ∈ ps, q.ids.Nodup) :
    (p :: Plant.idsAll ps).Nodup := by
  have hparent : ∀ q ∈ ps, d.parent? q.id = some p := fun q hq =>
    hf.parent_of_mem (hrow ▸ List.mem_map_of_mem hq)
  have hall : Plant.idsAll ps = ps.flatMap Plant.ids := by
    clear * -
    induction ps with
    | nil => simp
    | cons q rest ih => simp [ih]
  rw [List.nodup_cons]
  constructor
  · intro hp
    obtain ⟨q, hq, hp⟩ := Plant.mem_idsAll.1 hp
    exact hf.acyclic (hparent q hq) ((hstand q hq).above hf hp)
  · have hnd := hf.nodup p
    rw [hrow, List.Nodup, List.pairwise_map] at hnd
    rw [hall, List.nodup_flatMap]
    refine ⟨hps, hnd.imp_of_mem fun {q r} hq hr hne n hnq hnr => ?_⟩
    exact hne (hf.eq_of_above (hparent q hq) (hparent r hr) ((hstand q hq).above hf hnq)
      ((hstand r hr).above hf hnr))

theorem Stands.nodup (hf : d.Forest) (h : d.Stands q) : q.ids.Nodup := by
  induction h with
  | element _ _ _ row below ih =>
    rw [Plant.ids]
    exact nodup_of_row hf row below ih
  | text => rw [Plant.ids]; exact List.nodup_singleton _
  | comment => rw [Plant.ids]; exact List.nodup_singleton _

/-- A plant that stands has all of its node's children below it. -/
theorem Stands.bears (hf : d.Forest) (h : d.Stands q) : d.Bears (some q.id) q.children := by
  cases h with
  | element _ _ _ row below =>
    refine ⟨fun p hp => ?_, below⟩
    cases hp
    exact row
  | text _ kind =>
    refine ⟨fun p hp => ?_, fun c hc => by cases hc⟩
    cases hp
    exact hf.children_eq_nil_of_leaf (by rw [leaf?, Plant.id_text, kind]; simp)
  | comment _ kind =>
    refine ⟨fun p hp => ?_, fun c hc => by cases hc⟩
    cases hp
    exact hf.children_eq_nil_of_leaf (by rw [leaf?, Plant.id_comment, kind]; simp)

theorem Bears.nodup (hf : d.Forest) (h : d.Bears (some p) ps) : (p :: Plant.idsAll ps).Nodup :=
  nodup_of_row hf (h.row p rfl) h.stand fun q hq => (h.stand q hq).nodup hf

/-! ### What is below a plant that stands -/

theorem Stands.mem_of_child (hf : d.Forest) (h : d.Stands q) (hn : n ∈ q.ids)
    (hm : m ∈ d.children n) : m ∈ q.ids := by
  induction h with
  | @element id tag children _ _ _ row _ ih =>
    rw [Plant.ids, List.mem_cons] at hn ⊢
    refine .inr (Plant.mem_idsAll.2 ?_)
    rcases hn with rfl | hn
    · rw [row] at hm
      obtain ⟨c, hc, rfl⟩ := List.mem_map.1 hm
      exact ⟨c, hc, c.id_mem_ids⟩
    · obtain ⟨c, hc, hn⟩ := Plant.mem_idsAll.1 hn
      exact ⟨c, hc, ih c hc hn⟩
  | text _ kind =>
    rw [Plant.ids, List.mem_singleton] at hn
    rw [hn, hf.children_eq_nil_of_leaf (by rw [leaf?, kind]; simp)] at hm
    cases hm
  | comment _ kind =>
    rw [Plant.ids, List.mem_singleton] at hn
    rw [hn, hf.children_eq_nil_of_leaf (by rw [leaf?, kind]; simp)] at hm
    cases hm

theorem Stands.mem_of_above (hf : d.Forest) (h : d.Stands q) (ha : d.Above m n)
    (hn : n ∈ q.ids) : m ∈ q.ids := by
  induction ha with
  | self => exact hn
  | up _ hp ih => exact ih (h.mem_of_child hf hn (hf.mem_of_parent hp))

theorem Stands.solid (h : d.Stands q) (hn : n ∈ q.ids) : d.isFragment n = false := by
  induction h with
  | element _ kind _ _ _ ih =>
    rw [Plant.ids, List.mem_cons] at hn
    rcases hn with rfl | hn
    · rw [isFragment, kind]
      rfl
    · obtain ⟨c, hc, hn⟩ := Plant.mem_idsAll.1 hn
      exact ih c hc hn
  | text _ kind =>
    rw [Plant.ids, List.mem_singleton] at hn
    rw [hn, isFragment, kind]
    rfl
  | comment _ kind =>
    rw [Plant.ids, List.mem_singleton] at hn
    rw [hn, isFragment, kind]
    rfl

/-- All nodes of a plant but the topmost one have their parents in it. -/
theorem Stands.parent_of_mem (hf : d.Forest) (h : d.Stands q) (hn : n ∈ q.ids) :
    n = q.id ∨ ∃ p ∈ q.ids, d.parent? n = some p := by
  induction h with
  | @element id tag children _ _ _ row _ ih =>
    rw [Plant.ids, List.mem_cons] at hn
    rcases hn with rfl | hn
    · exact .inl rfl
    · obtain ⟨c, hc, hn⟩ := Plant.mem_idsAll.1 hn
      refine .inr ?_
      rw [Plant.ids]
      rcases ih c hc hn with rfl | ⟨p, hp, hnp⟩
      · exact ⟨id, List.mem_cons_self .., hf.parent_of_mem (row ▸ List.mem_map_of_mem hc)⟩
      · exact ⟨p, List.mem_cons_of_mem _ (Plant.mem_idsAll.2 ⟨c, hc, hp⟩), hnp⟩
  | text => exact .inl (List.mem_singleton.1 (by rwa [Plant.ids] at hn))
  | comment => exact .inl (List.mem_singleton.1 (by rwa [Plant.ids] at hn))

theorem Bears.has (h : d.Bears root ps) (hn : n ∈ Plant.idsAll ps) : d.Has n := by
  obtain ⟨q, hq, hn⟩ := Plant.mem_idsAll.1 hn
  exact (h.stand q hq).has_of_mem hn

theorem Bears.solid (h : d.Bears root ps) (hn : n ∈ Plant.idsAll ps) : d.isFragment n = false := by
  obtain ⟨q, hq, hn⟩ := Plant.mem_idsAll.1 hn
  exact (h.stand q hq).solid hn

theorem Bears.parent_of_mem (hf : d.Forest) (h : d.Bears root ps) (hn : n ∈ Plant.idsAll ps) :
    (root = none ∧ n ∈ ps.map Plant.id) ∨
      ∃ p, d.parent? n = some p ∧ (root = some p ∨ p ∈ Plant.idsAll ps) := by
  obtain ⟨q, hq, hn⟩ := Plant.mem_idsAll.1 hn
  rcases (h.stand q hq).parent_of_mem hf hn with rfl | ⟨p, hp, hnp⟩
  · have hmem : q.id ∈ ps.map Plant.id := List.mem_map_of_mem hq
    cases root with
    | none => exact .inl ⟨rfl, hmem⟩
    | some p => exact .inr ⟨p, hf.parent_of_mem (h.row p rfl ▸ hmem), .inl rfl⟩
  · exact .inr ⟨p, hnp, .inr (Plant.mem_idsAll.2 ⟨q, hq, hp⟩)⟩

/-- What a node bears is below it. -/
theorem Bears.parent_above {c : NodeId} (hf : d.Forest) (h : d.Bears (some c) ps)
    (hn : n ∈ Plant.idsAll ps) : ∃ p, d.parent? n = some p ∧ d.Above p c := by
  rcases h.parent_of_mem hf hn with ⟨hroot, -⟩ | ⟨p, hp, hroot | hmem⟩
  · cases hroot
  · cases hroot
    exact ⟨_, hp, .self⟩
  · obtain ⟨q, hq, hpq⟩ := Plant.mem_idsAll.1 hmem
    refine ⟨p, hp, ((h.stand q hq).above hf hpq).up (hf.parent_of_mem ?_)⟩
    rw [h.row c rfl]
    exact List.mem_map_of_mem hq

theorem Bears.mem_of_above (hf : d.Forest) (h : d.Bears root ps) (ha : d.Above m n)
    (hn : n ∈ Plant.idsAll ps) : m ∈ Plant.idsAll ps := by
  obtain ⟨q, hq, hn⟩ := Plant.mem_idsAll.1 hn
  exact Plant.mem_idsAll.2 ⟨q, hq, (h.stand q hq).mem_of_above hf ha hn⟩

/-! ### The markup of a node -/

theorem Stands.treesFrom (h : d.Stands q) {fuel : Nat} (hfuel : q.ids.length ≤ fuel) :
    d.treesFrom fuel q.id = [q.tree] := by
  induction h generalizing fuel with
  | @element id tag children has kind pairs row below ih =>
    rw [Plant.ids, List.length_cons] at hfuel
    cases fuel with
    | zero => omega
    | succ fuel =>
      have hbelow : (children.map Plant.id).flatMap (d.treesFrom fuel) = Plant.trees children := by
        clear kind pairs row below
        induction children with
        | nil => simp
        | cons c rest ihr =>
          rw [Plant.idsAll_cons, List.length_append] at hfuel
          rw [List.map_cons, List.flatMap_cons, ih c (List.mem_cons_self ..) (by omega),
            ihr (fun c hc => ih c (List.mem_cons_of_mem _ hc)) (by omega), Plant.trees_cons,
            List.singleton_append]
      rw [Document.treesFrom, Plant.id_element, kind, row, hbelow, pairs, Plant.tree]
  | text has kind written =>
    cases fuel with
    | zero => simp [Plant.ids] at hfuel
    | succ fuel =>
      rw [Document.treesFrom, Plant.id_text, kind, written, Plant.tree]
  | comment has kind written =>
    cases fuel with
    | zero => simp [Plant.ids] at hfuel
    | succ fuel =>
      rw [Document.treesFrom, Plant.id_comment, kind, written, Plant.tree]

/-- A document has no more nodes than its size. -/
theorem length_le_size {nodes : List NodeId} (hnd : nodes.Nodup) (hhas : ∀ n ∈ nodes, d.Has n) :
    nodes.length ≤ d.nodes.size := by
  have hsub : nodes.map NodeId.index ⊆ List.range d.nodes.size := by
    intro i hi
    obtain ⟨n, hn, rfl⟩ := List.mem_map.1 hi
    exact List.mem_range.2 (hhas n hn)
  have hmap : (nodes.map NodeId.index).Nodup := by
    refine hnd.map fun n m h => ?_
    cases n
    cases m
    cases h
    rfl
  have hle := (List.subperm_of_subset hmap hsub).length_le
  rwa [List.length_map, List.length_range] at hle

theorem Stands.trees (hf : d.Forest) (h : d.Stands q) : d.trees q.id = [q.tree] :=
  h.treesFrom (Nat.le_succ_of_le (length_le_size (h.nodup hf) fun _ hn => h.has_of_mem hn))

theorem Bears.content (hf : d.Forest) (h : d.Bears (some p) ps) : d.content p = Plant.trees ps := by
  have hstand := h.stand
  rw [Document.content, h.row p rfl]
  clear h
  induction ps with
  | nil => simp
  | cons q rest ih =>
    rw [List.map_cons, List.flatMap_cons, (hstand q (List.mem_cons_self ..)).trees hf,
      ih fun q hq => hstand q (List.mem_cons_of_mem _ hq), Plant.trees_cons, List.singleton_append]

/-! ### Grafting -/

section Graft

variable {f : Plant → List Plant} {F : NodeId → List NodeId}

theorem map_id_graftAll (hF : ∀ r : Plant, (f r).map Plant.id = F r.id) (ps : List Plant) :
    (Plant.graftAll f ps).map Plant.id = (ps.map Plant.id).flatMap F := by
  induction ps with
  | nil => simp
  | cons q rest ih =>
    have hq : (q.graft f).map Plant.id = F q.id := by
      cases q <;> exact hF _
    rw [Plant.graftAll_cons, List.map_append, hq, ih, List.map_cons, List.flatMap_cons]

theorem Stands.graft (h : d.Stands q) (hF : ∀ r : Plant, (f r).map Plant.id = F r.id)
    (helement : ∀ {id tag children children'}, id ∈ q.ids → d.Stands (.element id tag children) →
      children'.map Plant.id = (children.map Plant.id).flatMap F → (∀ c ∈ children', d'.Stands c) →
      ∀ r ∈ f (.element id tag children'), d'.Stands r)
    (htext : ∀ {id data}, id ∈ q.ids → d.Stands (.text id data) →
      ∀ r ∈ f (.text id data), d'.Stands r)
    (hcomment : ∀ {id data}, id ∈ q.ids → d.Stands (.comment id data) →
      ∀ r ∈ f (.comment id data), d'.Stands r) :
    ∀ r ∈ q.graft f, d'.Stands r := by
  induction h with
  | @element id tag children has kind pairs row below ih =>
    rw [Plant.graft]
    rw [Plant.ids] at helement htext hcomment
    refine helement (List.mem_cons_self ..) (.element has kind pairs row below)
      (map_id_graftAll hF children) fun c hc => ?_
    obtain ⟨p, hp, hc⟩ := Plant.mem_graftAll.1 hc
    have hsub : ∀ n ∈ p.ids, n ∈ id :: Plant.idsAll children := fun n hn =>
      List.mem_cons_of_mem _ (Plant.mem_idsAll.2 ⟨p, hp, hn⟩)
    exact ih p hp (fun hn => helement (hsub _ hn)) (fun hn => htext (hsub _ hn))
      (fun hn => hcomment (hsub _ hn)) c hc
  | text has kind written =>
    rw [Plant.graft]
    exact htext (Plant.id_mem_ids _) (.text has kind written)
  | comment has kind written =>
    rw [Plant.graft]
    exact hcomment (Plant.id_mem_ids _) (.comment has kind written)

theorem Bears.graft (h : d.Bears root ps) (hF : ∀ r : Plant, (f r).map Plant.id = F r.id)
    (hroot : ∀ p, root = some p → d'.children p = (d.children p).flatMap F)
    (helement : ∀ {id tag children children'}, id ∈ Plant.idsAll ps →
      d.Stands (.element id tag children) →
      children'.map Plant.id = (children.map Plant.id).flatMap F → (∀ c ∈ children', d'.Stands c) →
      ∀ r ∈ f (.element id tag children'), d'.Stands r)
    (htext : ∀ {id data}, id ∈ Plant.idsAll ps → d.Stands (.text id data) →
      ∀ r ∈ f (.text id data), d'.Stands r)
    (hcomment : ∀ {id data}, id ∈ Plant.idsAll ps → d.Stands (.comment id data) →
      ∀ r ∈ f (.comment id data), d'.Stands r) :
    d'.Bears root (Plant.graftAll f ps) where
  row p hp := by rw [hroot p hp, h.row p hp, map_id_graftAll hF]
  stand r hr := by
    obtain ⟨q, hq, hr⟩ := Plant.mem_graftAll.1 hr
    have hsub : ∀ n ∈ q.ids, n ∈ Plant.idsAll ps := fun n hn => Plant.mem_idsAll.2 ⟨q, hq, hn⟩
    exact (h.stand q hq).graft hF (fun hn => helement (hsub _ hn)) (fun hn => htext (hsub _ hn))
      (fun hn => hcomment (hsub _ hn)) r hr

end Graft

/-- A change that moves nodes: the lists of children change alike, and the nodes that are put there
stand already. -/
theorem Bears.relink {f : Plant → List Plant} {F : NodeId → List NodeId} (h : d.Bears root ps)
    (hr : Relinked d d') (hF : ∀ r : Plant, (f r).map Plant.id = F r.id)
    (hf : ∀ q, ∀ r ∈ f q, r = q ∨ d'.Stands r)
    (hrow : ∀ p, root = some p ∨ p ∈ Plant.idsAll ps → d'.children p = (d.children p).flatMap F) :
    d'.Bears root (Plant.graftAll f ps) := by
  refine h.graft hF (fun p hp => hrow p (.inl hp)) ?_ ?_ ?_
  · intro id tag children children' hid hstand hmap hbelow r hfr
    rcases hf _ r hfr with rfl | hr'
    · cases hstand with
      | element has kind pairs row =>
        refine .element (hr.has.2 has) ((hr.kind _).trans kind) ((hr.pairs _).trans pairs) ?_ hbelow
        rw [hrow id (.inr hid), row, hmap]
    · exact hr'
  · intro id data _ hstand r hfr
    rcases hf _ r hfr with rfl | hr'
    · cases hstand with
      | text has kind written =>
        exact .text (hr.has.2 has) ((hr.kind _).trans kind) ((hr.data _).trans written)
    · exact hr'
  · intro id data _ hstand r hfr
    rcases hf _ r hfr with rfl | hr'
    · cases hstand with
      | comment has kind written =>
        exact .comment (hr.has.2 has) ((hr.kind _).trans kind) ((hr.data _).trans written)
    · exact hr'

end Document

namespace Plant

/-- Puts some plants in front of the node `n`. -/
def before (n : NodeId) (new : List Plant) (q : Plant) : List Plant :=
  if q.id = n then new ++ [q] else [q]

/-- Takes the node `n` away. -/
def without (n : NodeId) (q : Plant) : List Plant :=
  if q.id = n then [] else [q]

/-- Changes what the text `n` says. -/
def say (n : NodeId) (data : String) : Plant → List Plant
  | text id old => [text id (if id = n then data else old)]
  | q => [q]

/-- Changes the attributes of the element `n`. -/
def adorn (n : NodeId) (f : List (String × String) → List (String × String)) : Plant → List Plant
  | element id tag children =>
    [element id (if id = n then { tag with attributes := f tag.attributes } else tag) children]
  | q => [q]

/-- Changes the content of the element `n`. -/
def fill (n : NodeId) (content : List Plant) : Plant → List Plant
  | element id tag children => [element id tag (if id = n then content else children)]
  | q => [q]

end Plant

namespace Document

variable {d d' : Document} {n m p : NodeId} {root : Option NodeId} {ps new : List Plant}
  {front behind nodes : List NodeId}

theorem flatMap_eq_self {F : NodeId → List NodeId} {l : List NodeId} (h : ∀ m ∈ l, F m = [m]) :
    l.flatMap F = l := by
  induction l with
  | nil => rfl
  | cons m rest ih =>
    rw [List.flatMap_cons, h m (List.mem_cons_self ..), ih fun m hm => h m (List.mem_cons_of_mem _ hm),
      List.singleton_append]

/-- A graft that puts one node with the same identity in the place of each keeps the topmost nodes. -/
theorem tops_graftAll {f : Plant → List Plant} (hf : ∀ r : Plant, (f r).map Plant.id = [r.id]) :
    (Plant.graftAll f ps).map Plant.id = ps.map Plant.id := by
  rw [map_id_graftAll (F := fun m => [m]) hf]
  exact flatMap_eq_self fun _ _ => rfl

/-- Some plants are put in front of a node. -/
theorem Bears.insert (hf : d.Forest) (h : d.Bears root ps)
    (hins : Inserted d d' p nodes front (n :: behind)) (hp : d.children p = front ++ n :: behind)
    (hnodes : new.map Plant.id = nodes) (hnew : ∀ q ∈ new, d'.Stands q)
    (hfree : ∀ q, root = some q ∨ q ∈ Plant.idsAll ps → ∀ m ∈ nodes, m ∉ d.children q) :
    d'.Bears root (Plant.graftAll (Plant.before n new) ps) := by
  have hparent : d.parent? n = some p := hf.parent_of_mem (by rw [hp]; simp)
  refine h.relink hins.relinked
    (F := fun m => if m = n then nodes ++ [m] else [m]) (fun r => ?_) (fun q r hr => ?_)
    fun q hq => ?_
  · rw [Plant.before]
    split <;> simp [hnodes]
  · rw [Plant.before] at hr
    split at hr
    · rcases List.mem_append.1 hr with hr | hr
      · exact .inr (hnew r hr)
      · exact .inl (List.mem_singleton.1 hr)
    · exact .inl (List.mem_singleton.1 hr)
  · have hnone : ∀ l : List NodeId, n ∉ l →
        l.flatMap (fun m => if m = n then nodes ++ [m] else [m]) = l := fun l hl =>
      flatMap_eq_self fun m hm => if_neg fun (he : m = n) => hl (he ▸ hm)
    by_cases hqp : q = p
    · have hnd := hf.nodup p
      rw [hp, List.nodup_append, List.nodup_cons] at hnd
      have hfront : n ∉ front := fun hm => hnd.2.2 n hm n (List.mem_cons_self ..) rfl
      have hrow := hfree q hq
      rw [hqp, hp] at hrow
      have hfree₁ : ∀ m ∈ nodes, m ∉ front := fun m hm hmf =>
        hrow m hm (List.mem_append_left _ hmf)
      have hfree₂ : ∀ m ∈ nodes, m ∉ n :: behind := fun m hm hmb =>
        hrow m hm (List.mem_append_right _ hmb)
      rw [hqp, hins.children_self, hp, filter_notMem_of_disjoint hfree₁,
        filter_notMem_of_disjoint hfree₂, List.flatMap_append, List.flatMap_cons, if_pos rfl,
        hnone front hfront, hnone behind hnd.2.1.1]
      simp
    · have hnq : n ∉ d.children q := fun hm =>
        hqp (Option.some.inj ((hf.parent_of_mem hm).symm.trans hparent))
      rw [hins.children_of_ne q hqp, filter_notMem_of_disjoint (hfree q hq), hnone _ hnq]

/-- A node is taken away. -/
theorem Bears.remove (h : d.Bears root ps) (hr : Relinked d d')
    (hrow : ∀ q, d'.children q = (d.children q).filter (· != n)) :
    d'.Bears root (Plant.graftAll (Plant.without n) ps) := by
  refine h.relink hr (F := fun m => if m = n then [] else [m]) (fun r => ?_) (fun q r hr => ?_)
    fun q _ => ?_
  · rw [Plant.without]
    split <;> rfl
  · rw [Plant.without] at hr
    split at hr
    · cases hr
    · exact .inl (List.mem_singleton.1 hr)
  · rw [hrow]
    induction d.children q with
    | nil => rfl
    | cons m rest ih =>
      rw [List.flatMap_cons, ← ih]
      by_cases hm : m = n <;> simp [hm]

/-- Nothing but what one node is has changed, and what becomes of that node stands. -/
theorem Bears.retouch {f : Plant → List Plant} (h : d.Bears root ps)
    (hF : ∀ r : Plant, (f r).map Plant.id = [r.id])
    (hroot : ∀ p, root = some p → d'.children p = d.children p)
    (hsame : ∀ m ∈ Plant.idsAll ps, m ≠ n → Unchanged d d' m)
    (hf : ∀ q : Plant, q.id ≠ n → f q = [q])
    (helement : ∀ {tag children children'}, d.Stands (.element n tag children) →
      children'.map Plant.id = children.map Plant.id → (∀ c ∈ children', d'.Stands c) →
      ∀ r ∈ f (.element n tag children'), d'.Stands r)
    (htext : ∀ {data}, d.Stands (.text n data) → ∀ r ∈ f (.text n data), d'.Stands r)
    (hcomment : ∀ {data}, d.Stands (.comment n data) → ∀ r ∈ f (.comment n data), d'.Stands r) :
    d'.Bears root (Plant.graftAll f ps) := by
  have hone : ∀ l : List NodeId, l.flatMap (fun m => [m]) = l := fun l =>
    flatMap_eq_self fun _ _ => rfl
  refine h.graft (F := fun m => [m]) hF (fun p hp => by rw [hroot p hp, hone]) ?_ ?_ ?_
  · intro id tag children children' hid hstand hmap hbelow r hr
    rw [hone] at hmap
    by_cases hn : id = n
    · subst hn
      exact helement hstand hmap hbelow r hr
    · have hu := hsame id hid hn
      rw [hf (.element id tag children') hn, List.mem_singleton] at hr
      rw [hr]
      cases hstand with
      | element has kind pairs row =>
        exact .element (hu.has has) (hu.kind.trans kind) (hu.pairs.trans pairs)
          (by rw [hu.children, row, hmap]) hbelow
  · intro id data hid hstand r hr
    by_cases hn : id = n
    · subst hn
      exact htext hstand r hr
    · rw [hf (.text id data) hn, List.mem_singleton] at hr
      rw [hr]
      refine hstand.congr fun m hm => ?_
      rw [Plant.ids, List.mem_singleton] at hm
      rw [hm]
      exact hsame id hid hn
  · intro id data hid hstand r hr
    by_cases hn : id = n
    · subst hn
      exact hcomment hstand r hr
    · rw [hf (.comment id data) hn, List.mem_singleton] at hr
      rw [hr]
      refine hstand.congr fun m hm => ?_
      rw [Plant.ids, List.mem_singleton] at hm
      rw [hm]
      exact hsame id hid hn

theorem node_setData_of_ne {data : String} (h : m ≠ n) : (d.setData n data).node m = d.node m :=
  node_update_of_ne _ _ h

theorem node_setData {data : String} (hn : d.Has n) :
    (d.setData n data).node n = { d.node n with data } :=
  node_update_self _ _ _ hn

theorem has_setData {data : String} : (d.setData n data).Has m ↔ d.Has m := by
  rw [Has, setData, size_nodes_update]
  rfl

theorem children_setData {data : String} : (d.setData n data).children m = d.children m := by
  rw [children, setData, node_update]
  split <;> rfl

theorem parent?_setData {data : String} : (d.setData n data).parent? m = d.parent? m := by
  rw [parent?, setData, node_update]
  split <;> rfl

theorem kind_setData {data : String} : (d.setData n data).kind m = d.kind m := by
  rw [kind, setData, node_update]
  split <;> rfl

theorem unchanged_setData {data : String} (h : m ≠ n) : Unchanged d (d.setData n data) m := by
  refine ⟨has_setData.2, kind_setData, ?_, ?_, ?_, children_setData⟩
  · rw [node_setData_of_ne h]
  · rw [node_setData_of_ne h]
  · rw [attributePairs, node_setData_of_ne h, attributePairs]
    rfl

theorem Sound.setData (hs : d.Sound) (n : NodeId) (data : String) : (d.setData n data).Sound := by
  refine ⟨hs.forest.congr (fun _ => children_setData) (fun _ => parent?_setData) fun _ _ =>
    kind_setData, hs.owned.congr (fun m => ?_) fun _ => rfl⟩
  rw [Document.setData, node_update]
  split <;> rfl

/-- A text is changed. -/
theorem Bears.say (h : d.Bears root ps) {data : String} (hn : d.Has n) (hkind : d.kind n = .text) :
    (d.setData n data).Bears root (Plant.graftAll (Plant.say n data) ps) := by
  refine h.retouch (n := n) (fun r => ?_) (fun p _ => children_setData)
    (fun m _ hm => unchanged_setData hm) (fun q hq => ?_) ?_ ?_ ?_
  · cases r <;> rfl
  · cases q with
    | text id old => rw [Plant.say, if_neg (by exact hq)]
    | element | comment => rfl
  · intro tag children children' hstand
    cases hstand with
    | element _ hk => rw [hkind] at hk; cases hk
  · intro old _ r hr
    rw [Plant.say, if_pos rfl, List.mem_singleton] at hr
    rw [hr]
    exact .text (has_setData.2 hn) (kind_setData.trans hkind) (by rw [node_setData hn])
  · intro old hstand
    cases hstand with
    | comment _ hk => rw [hkind] at hk; cases hk

theorem Reattributed.has {a : AttributeId} (h : Reattributed d d' n a) : d'.Has m ↔ d.Has m := by
  rw [Has, h.size, Has]

theorem Reattributed.data {a : AttributeId} (h : Reattributed d d' n a) (m : NodeId) :
    (d'.node m).data = (d.node m).data := by
  obtain ⟨as, hm, -⟩ := h.node m
  rw [hm]

theorem Reattributed.unchanged {a : AttributeId} (h : Reattributed d d' n a) (hm : m ≠ n)
    (ha : a ∉ (d.node m).attributes) : Unchanged d d' m := by
  have hnode := h.node_of_ne hm
  refine ⟨h.has.2, h.kind m, h.data m, by rw [hnode], ?_, h.children m⟩
  rw [attributePairs, hnode, attributePairs]
  refine List.map_congr_left fun b hb => ?_
  rw [h.attr b fun hba => ha (hba ▸ hb)]

/-- An element gets other attributes. -/
theorem Bears.adorn (h : d.Bears root ps) {a : AttributeId}
    {f : List (String × String) → List (String × String)} (hre : Reattributed d d' n a)
    (hpairs : d'.attributePairs n = f (d.attributePairs n))
    (hother : ∀ m, m ≠ n → a ∉ (d.node m).attributes) :
    d'.Bears root (Plant.graftAll (Plant.adorn n f) ps) := by
  refine h.retouch (n := n) (fun r => ?_) (fun p _ => hre.children p)
    (fun m _ hm => hre.unchanged hm (hother m hm)) (fun q hq => ?_) ?_ ?_ ?_
  · cases r <;> rfl
  · cases q with
    | element id tag children => rw [Plant.adorn, if_neg (by exact hq)]
    | text | comment => rfl
  · intro tag children children' hstand hmap hbelow r hr
    rw [Plant.adorn, if_pos rfl, List.mem_singleton] at hr
    rw [hr]
    cases hstand with
    | element has kind pairs row =>
      refine .element (hre.has.2 has) ((hre.kind n).trans kind) ?_ ?_ hbelow
      · rw [hpairs, pairs]
      · rw [hre.children, row, hmap]
  · intro old hstand r hr
    rw [show r = .text n old from List.mem_singleton.1 hr]
    cases hstand with
    | text has kind written =>
      exact .text (hre.has.2 has) ((hre.kind n).trans kind) ((hre.data n).trans written)
  · intro old hstand r hr
    rw [show r = .comment n old from List.mem_singleton.1 hr]
    cases hstand with
    | comment has kind written =>
      exact .comment (hre.has.2 has) ((hre.kind n).trans kind) ((hre.data n).trans written)

/-- An element gets other content. -/
theorem Bears.fill (h : d.Bears root ps) (hroot : root ≠ some n)
    (hsame : ∀ m, root = some m ∨ m ∈ Plant.idsAll ps → m ≠ n → Unchanged d d' m)
    (hhas : d'.Has n) (hkind : d'.kind n = d.kind n) (hleaf : d.leaf? n = none)
    (hpairs : d'.attributePairs n = d.attributePairs n) (hrow : d'.children n = new.map Plant.id)
    (hnew : ∀ q ∈ new, d'.Stands q) :
    d'.Bears root (Plant.graftAll (Plant.fill n new) ps) := by
  refine h.retouch (n := n) (fun r => ?_) (fun p hp => ?_) (fun m hm hne => hsame m (.inr hm) hne)
    (fun q hq => ?_) ?_ ?_ ?_
  · cases r <;> rfl
  · exact (hsame p (.inl hp) fun he => hroot (he ▸ hp)).children
  · cases q with
    | element id tag children => rw [Plant.fill, if_neg (by exact hq)]
    | text | comment => rfl
  · intro tag children children' hstand _ _ r hr
    rw [Plant.fill, if_pos rfl, List.mem_singleton] at hr
    rw [hr]
    cases hstand with
    | element has kind pairs row =>
      exact .element hhas (hkind.trans kind) (hpairs.trans pairs) hrow hnew
  · intro old hstand
    cases hstand with
    | text _ kind => rw [leaf?, kind] at hleaf; cases hleaf
  · intro old hstand
    cases hstand with
    | comment _ kind => rw [leaf?, kind] at hleaf; cases hleaf

end Document

end LiveMarkup
