import LiveMarkup.Document.Blocks
import LiveMarkup.Proofs.Document.Moves
/-!
# Where the nodes of a block go

A block spans the nodes from its first to its last one. Wherever they are before, in their fragment,
side by side in some node, or parted so that the first one is elsewhere, `collect` brings all of them
into the fragment (`gathered_collect`). `collectTail` leaves the first node where the block was
(`inserted_collectTail`), and so removing it leaves the block parted, which collecting it again makes
good.
-/

namespace LiveMarkup

/-- The fragment of a group. -/
def Block.fragments : Block → List NodeId
  | single _ => []
  | group g => [g.fragment]

/-- The node that stands for a block when it is inserted. -/
def Block.handle : Block → NodeId
  | single n => n
  | group g => g.fragment

/-- The first node of a block. -/
def Block.first : Block → NodeId
  | single n => n
  | group g => g.first

/-- The last node of a block. -/
def Block.last : Block → NodeId
  | single n => n
  | group g => g.last

/-- Some nodes are what a block spans: its own nodes in their order, and what stands between them.
-/
def Block.Spans : Block → List NodeId → Prop
  | single n, span => span = [n]
  | group g, span =>
    g.members ≠ [] ∧ span.Nodup ∧ g.members.Sublist span ∧ span.head? = some g.first ∧
      span.getLast? = some g.last

namespace Document

variable {d d' : Document} {p n c f q : NodeId} {e : Block} {g : Group}
  {span front behind : List NodeId}

@[simp] theorem access_insert_fst : (d.access e .insert).1 = e.handle := by
  cases e <;> rfl

@[simp] theorem access_remove_fst : (d.access e .remove).1 = e.first := by
  cases e <;> rfl

@[simp] theorem access_first : d.access e .first = (e.first, d) := by
  cases e <;> rfl

@[simp] theorem access_last : d.access e .last = (e.last, d) := by
  cases e <;> rfl

/-- The document has the nodes of a block, and its fragment is one. -/
structure Holds (d : Document) (e : Block) (span : List NodeId) : Prop where
  spans : e.Spans span
  has : ∀ n ∈ span, d.Has n
  solid : ∀ n ∈ span, d.isFragment n = false
  has_fragment : ∀ f ∈ e.fragments, d.Has f
  fragment : ∀ f ∈ e.fragments, d.isFragment f = true

theorem holds_single (hn : d.Has n) (hsolid : d.isFragment n = false) :
    d.Holds (.single n) [n] where
  spans := rfl
  has m hm := List.mem_singleton.1 hm ▸ hn
  solid m hm := List.mem_singleton.1 hm ▸ hsolid
  has_fragment f hf := by cases hf
  fragment f hf := by cases hf

theorem Holds.relinked (h : d.Holds e span) (hr : Relinked d d') : d'.Holds e span where
  spans := h.spans
  has n hn := hr.has.2 (h.has n hn)
  solid n hn := by rw [hr.isFragment, h.solid n hn]
  has_fragment f hf := hr.has.2 (h.has_fragment f hf)
  fragment f hf := by rw [hr.isFragment, h.fragment f hf]

/-- The nodes of a group are in its fragment. -/
def Whole (d : Document) (g : Group) (span : List NodeId) : Prop :=
  d.children g.fragment = span

/-- All nodes of a group but the first one are in its fragment. -/
def Parted (d : Document) (g : Group) (span : List NodeId) : Prop :=
  d.children g.fragment = span.tail ∧ d.parent? g.first ≠ some g.fragment

/-- The nodes of a group are side by side in a node. -/
def Standing (d : Document) (p : NodeId) (g : Group) (span : List NodeId) : Prop :=
  d.children g.fragment = [] ∧ p ≠ g.fragment ∧
    ∃ front behind, d.children p = front ++ span ++ behind

/-- The nodes of a block are where they can be collected. -/
def Gatherable (d : Document) (e : Block) (span : List NodeId) : Prop :=
  match e with
  | .single _ => True
  | .group g => d.Whole g span ∨ d.Parted g span ∨ ∃ p, d.Standing p g span

/-! ### Runs of siblings -/

theorem runFrom_append (h : n ∉ front) : runFrom n (front ++ n :: behind) = n :: behind := by
  induction front with
  | nil => simp [runFrom]
  | cons m front ih =>
    rw [List.mem_cons, not_or] at h
    have hm : (m != n) = true := by simpa using fun he => h.1 he.symm
    show List.dropWhile (· != n) (m :: (front ++ n :: behind)) = n :: behind
    rw [List.dropWhile_cons, if_pos hm]
    exact ih h.2

theorem runTo_append (h : (span ++ behind).Nodup) (hlast : span.getLast? = some n) :
    runTo n (span ++ behind) = span := by
  induction span with
  | nil => cases hlast
  | cons m rest ih =>
    rw [List.cons_append, List.nodup_cons] at h
    cases rest with
    | nil =>
      have hm : m = n := by simpa using hlast
      rw [List.cons_append, runTo, if_pos hm]
    | cons m' rest =>
      rw [List.getLast?_cons_cons] at hlast
      have hmem : n ∈ m' :: rest ++ behind := List.mem_append_left _ (List.mem_of_getLast? hlast)
      have hm : m ≠ n := fun he => h.1 (he ▸ hmem)
      rw [List.cons_append, runTo, if_neg hm, ih h.2 hlast]

theorem Holds.eq_cons (h : d.Holds (.group g) span) : span = g.first :: span.tail := by
  obtain ⟨-, -, -, hhead, -⟩ := h.spans
  exact (List.cons_head?_tail hhead).symm

theorem Holds.first_mem (h : d.Holds (.group g) span) : g.first ∈ span :=
  List.mem_of_mem_head? h.spans.2.2.2.1

theorem Holds.last_mem (h : d.Holds (.group g) span) : g.last ∈ span :=
  List.mem_of_getLast? h.spans.2.2.2.2

theorem Holds.eq_first_cons (h : d.Holds e span) : span = e.first :: span.tail := by
  cases e with
  | single n =>
    rw [show span = [n] from h.spans]
    rfl
  | group g => exact h.eq_cons

theorem Holds.getLast?_eq (h : d.Holds e span) : span.getLast? = some e.last := by
  cases e with
  | single n =>
    rw [show span = [n] from h.spans]
    rfl
  | group g => exact h.spans.2.2.2.2

/-- A node stands for a block only if it is one of its own. -/
theorem Holds.handle_mem (h : d.Holds e span) : e.handle ∈ e.fragments ++ span := by
  cases e with
  | single n =>
    rw [show span = [n] from h.spans]
    exact List.mem_singleton_self n
  | group g => exact List.mem_append_left _ (List.mem_singleton_self _)

theorem run_eq (hf : d.Forest) (h : d.Holds (.group g) span)
    (hp : d.children p = front ++ span ++ behind) :
    runTo g.last (runFrom g.first (d.children p)) = span := by
  have hnd := hf.nodup p
  rw [hp, List.append_assoc] at hnd
  obtain ⟨-, -, -, hhead, hlast⟩ := h.spans
  have hfirst : g.first ∉ front := fun hm =>
    List.disjoint_of_nodup_append hnd hm (List.mem_append_left _ h.first_mem)
  have hcons := h.eq_cons
  have hspan : runFrom g.first (d.children p) = span ++ behind := by
    rw [hp, List.append_assoc, hcons, List.cons_append, runFrom_append hfirst]
  rw [hspan, runTo_append (List.nodup_append.1 hnd).2.1 hlast]

/-! ### Collecting a block -/

/-- The document with all nodes of a group in its fragment. -/
structure Gathered (d d' : Document) (f : NodeId) (span : List NodeId) : Prop where
  forest : d'.Forest
  relinked : Relinked d d'
  children_self : d'.children f = span
  children_of_ne : ∀ q, q ≠ f → d'.children q = (d.children q).filter (· ∉ span)
  parent? : ∀ m, d'.parent? m = if m ∈ span then some f else d.parent? m
  notices : d'.notices = d.notices

theorem Gathered.moved (h : Gathered d d' f span) (hsub : ∀ n ∈ d.children f, n ∈ span) :
    Moved d d' span where
  forest := h.forest
  relinked := h.relinked
  children q := by
    by_cases hq : q = f
    · rw [hq, h.children_self, List.filter_eq_nil_iff.2 (by simp),
        List.filter_eq_nil_iff.2 (by simpa using hsub)]
    · rw [h.children_of_ne q hq, List.filter_filter]
      simp only [Bool.and_self]
  notices := h.notices

theorem Holds.adoptable_fragment (hf : d.Forest) (h : d.Holds (.group g) span) (hn : n ∈ span) :
    d.Adoptable g.fragment n where
  has_parent := h.has_fragment _ (List.mem_singleton_self _)
  has_child := h.has n hn
  inner := by
    have hfragment := h.fragment _ (List.mem_singleton_self _)
    rw [isFragment, beq_iff_eq] at hfragment
    rw [leaf?, hfragment]
  solid := h.solid n hn
  outside ha := by
    -- nothing is above a fragment
    have hfragment := h.fragment _ (List.mem_singleton_self _)
    rcases ha.eq_or_of_parent with rfl | ⟨p, hp, -⟩
    · rw [h.solid _ hn] at hfragment
      cases hfragment
    · rw [hf.solid hp] at hfragment
      cases hfragment

/-- The nodes that are not in the fragment yet are put in front of those that are. -/
theorem gathered_foldl (hf : d.Forest) (h : d.Holds (.group g) span) {nodes : List NodeId}
    (hspan : nodes ++ d.children g.fragment = span) :
    Gathered d
      (nodes.foldl (fun d' n => d'.insertBefore g.fragment n (d.children g.fragment).head?) d)
      g.fragment span := by
  have hsub : ∀ n ∈ nodes, n ∈ span := fun n hn => hspan ▸ List.mem_append_left _ hn
  have hnd : (nodes ++ d.children g.fragment).Nodup := hspan ▸ h.spans.2.1
  have hdisj := List.disjoint_of_nodup_append hnd
  have hins : Insertable d g.fragment nodes [] (d.children g.fragment) :=
    ⟨hf, rfl, fun n hn => h.adoptable_fragment hf (hsub n hn), (List.nodup_append.1 hnd).1⟩
  have hout := inserted_foldl_insertBefore hins
    fun n hn he => hdisj hn (List.mem_of_mem_head? he)
  refine ⟨hout.forest, hout.relinked, ?_, ?_, ?_, hout.notices⟩
  · rw [hout.children_self, filter_notMem_of_disjoint hdisj, List.filter_nil, List.nil_append, hspan]
  · intro q hq
    rw [hout.children_of_ne q hq]
    refine List.filter_congr fun m hm => ?_
    have hiff : m ∈ nodes ↔ m ∈ span := by
      refine ⟨hsub m, fun hms => ?_⟩
      rw [← hspan, List.mem_append] at hms
      refine hms.resolve_right fun hmf => hq ?_
      exact Option.some.inj ((hf.parent_of_mem hm).symm.trans (hf.parent_of_mem hmf))
    simp only [hiff]
  · intro m
    rw [hout.parent?]
    by_cases hm : m ∈ nodes
    · rw [if_pos hm, if_pos (hsub m hm)]
    · rw [if_neg hm]
      split
      · rename_i hms
        rw [← hspan, List.mem_append] at hms
        exact hf.parent_of_mem (hms.resolve_left hm)
      · rfl

theorem loose_of_whole (hf : d.Forest) (h : d.Holds (.group g) span) (hw : d.Whole g span) :
    d.loose g = [] := by
  have hp : d.parent? g.first = some g.fragment := hf.parent_of_mem (hw ▸ h.first_mem)
  rw [loose, hp]
  exact if_pos rfl

theorem loose_of_parted (hf : d.Forest) (h : d.Holds (.group g) span) (hp : d.Parted g span) :
    d.loose g = [g.first] := by
  rw [loose]
  cases hfirst : d.parent? g.first with
  | none => rfl
  | some p =>
    have hne : p ≠ g.fragment := fun he => hp.2 (by rw [hfirst, he])
    show (if p = g.fragment then [] else if d.parent? g.last = some p then _ else [g.first]) = _
    rw [if_neg hne]
    split
    · rename_i hlast
      -- the last node is in `p` only if it is the first one as well
      have htail : g.last ∉ span.tail := by
        intro hm
        rw [← hp.1] at hm
        exact hne (Option.some.inj (hlast.symm.trans (hf.parent_of_mem hm)))
      have hlast' := h.last_mem
      rw [h.eq_cons, List.mem_cons] at hlast'
      have heq : g.last = g.first := hlast'.resolve_right htail
      obtain ⟨front, behind, hsplit⟩ := List.append_of_mem (hf.mem_of_parent hfirst)
      have hnd := hf.nodup p
      rw [hsplit] at hnd
      have hfront : g.first ∉ front := fun hm =>
        List.disjoint_of_nodup_append hnd hm (List.mem_cons_self ..)
      rw [hsplit, runFrom_append hfront, heq, runTo, if_pos rfl]
    · rfl

theorem loose_of_standing (hf : d.Forest) (h : d.Holds (.group g) span)
    (hs : d.Standing p g span) : d.loose g = span := by
  obtain ⟨-, hne, front, behind, hp⟩ := hs
  have hmem : ∀ n ∈ span, d.parent? n = some p := fun n hn =>
    hf.parent_of_mem (by rw [hp]; simp [hn])
  rw [loose, hmem _ h.first_mem]
  show (if p = g.fragment then [] else if d.parent? g.last = some p then _ else _) = _
  rw [if_neg hne, if_pos (hmem _ h.last_mem), run_eq hf h hp]

/-- Wherever the nodes of a group are, collecting brings them into the fragment. -/
theorem gathered_collect (hf : d.Forest) (h : d.Holds (.group g) span)
    (hg : d.Gatherable (.group g) span) : Gathered d (d.collect g) g.fragment span := by
  have hcollect : d.collect g = (d.loose g).foldl
      (fun d' n => d'.insertBefore g.fragment n (d.children g.fragment).head?) d := by
    rw [collect, if_neg (by simpa using h.spans.1)]
    rfl
  rw [hcollect]
  rcases hg with hw | hp | ⟨p, hs⟩
  · rw [loose_of_whole hf h hw]
    exact gathered_foldl hf h hw
  · rw [loose_of_parted hf h hp]
    exact gathered_foldl hf h (by rw [hp.1, List.singleton_append, ← h.eq_cons])
  · rw [loose_of_standing hf h hs]
    exact gathered_foldl hf h (by rw [hs.1, List.append_nil])

/-! ### Collecting all but the first node -/

/-- A group of one node spans it alone. -/
theorem Holds.tail_eq_nil (h : d.Holds (.group g) span) (hlen : g.members.length < 2) :
    span.tail = [] := by
  obtain ⟨hne, hnd, -, hhead, hlast⟩ := h.spans
  obtain ⟨m, hm⟩ : ∃ m, g.members = [m] := by
    rw [← List.length_eq_one_iff]
    have := List.length_pos_iff.2 hne
    omega
  have hfirst : g.first = m := by rw [Group.first, hm, List.headD_cons]
  have hlast' : g.last = m := by rw [Group.last, hm, List.getLastD_cons, List.getLastD_nil]
  rw [h.eq_cons] at hlast hnd
  cases htail : span.tail with
  | nil => rfl
  | cons x rest =>
    rw [htail] at hlast hnd
    rw [List.getLast?_cons_cons] at hlast
    have hmem : m ∈ x :: rest := hlast' ▸ List.mem_of_getLast? hlast
    exact absurd (hfirst ▸ hmem) (List.nodup_cons.1 hnd).1

/-- In a group of several nodes the last one is behind the first. -/
theorem Holds.getLast?_tail (h : d.Holds (.group g) span) (hlen : ¬ g.members.length < 2) :
    span.tail.getLast? = some g.last := by
  obtain ⟨-, hnd, hsub, hhead, hlast⟩ := h.spans
  have htail : span.tail ≠ [] := by
    intro hnil
    have hle := hsub.length_le
    rw [h.eq_cons, hnil, List.length_singleton] at hle
    omega
  rw [h.eq_cons] at hlast
  cases htail' : span.tail with
  | nil => exact absurd htail' htail
  | cons x rest =>
    rw [htail', List.getLast?_cons_cons] at hlast
    exact hlast

/-- All nodes of a group but the first one go into its empty fragment. -/
theorem inserted_collectTail (hf : d.Forest) (h : d.Holds (.group g) span)
    (hs : d.Standing p g span) : Inserted d (d.collectTail g) g.fragment span.tail [] [] := by
  obtain ⟨hempty, hne, front, behind, hp⟩ := hs
  have hmem : ∀ n ∈ span, d.parent? n = some p := fun n hn =>
    hf.parent_of_mem (by rw [hp]; simp [hn])
  have hnd : span.Nodup := h.spans.2.1
  have hins : Insertable d g.fragment span.tail [] [] :=
    ⟨hf, hempty, fun n hn => h.adoptable_fragment hf (List.mem_of_mem_tail hn), hnd.tail⟩
  have hout := inserted_foldl_insertBefore hins (by simp)
  have hfragment : some p ≠ some g.fragment := fun he => hne (Option.some.inj he)
  rw [collectTail, hmem _ h.first_mem, if_neg hfragment]
  show Inserted d (if g.members.length < 2 then d else
    if d.parent? g.last = some p then _ else d) _ _ _ _
  by_cases hlen : g.members.length < 2
  · rw [if_pos hlen]
    rw [h.tail_eq_nil hlen] at hout ⊢
    exact hout
  · have hfirst : g.first ∉ front := by
      have hnodup := hf.nodup p
      rw [hp, List.append_assoc] at hnodup
      exact fun hm =>
        List.disjoint_of_nodup_append hnodup hm (List.mem_append_left _ h.first_mem)
    have hrest : (runFrom g.first (d.children p)).tail = span.tail ++ behind := by
      rw [hp, List.append_assoc, h.eq_cons, List.cons_append, runFrom_append hfirst]
      rfl
    have hnodup : (span.tail ++ behind).Nodup := by
      have hnodup := hf.nodup p
      rw [hp, List.append_assoc, h.eq_cons, List.cons_append, List.nodup_append] at hnodup
      exact (List.nodup_cons.1 hnodup.2.1).2
    rw [if_neg hlen, if_pos (hmem _ h.last_mem), hrest, runTo_append hnodup (h.getLast?_tail hlen)]
    exact hout

end Document

end LiveMarkup
