import LiveMarkup.Proofs.Document.Blocks
/-!
# A group moves as one

A group is put into elements and taken out of them, and while it is in one, other nodes are put between its
first and its last node or taken away again (`Journey.Step`). What the group consists of on the way is kept
account of apart from the document, and so is what stands around it. Wherever it is after some steps, all
of it is there, side by side and in order (`Journey.Reached.group_intact`): its nodes are either in the
fragment, or in the element it was put into last, or, when it has been taken out, the first one alone and the
others in the fragment (`Group.Placed`).
-/

namespace LiveMarkup.Document

/-- The nodes that are put somewhere when a node is inserted: a fragment stands for its children. -/
def entries (d : Document) (n : NodeId) : List NodeId :=
  if d.isFragment n then d.children n else [n]

/-- Some nodes with others put in front of `r`, wherever these have been before. -/
def putBefore (nodes : List NodeId) (r : NodeId) (l : List NodeId) : List NodeId :=
  l.flatMap fun m => (if m = r then nodes else []) ++ if m ∈ nodes then [] else [m]

/-- Puts a block into `p`, in front of the reference or at the end. -/
def mountBlock (d : Document) (e : Block) (p : NodeId) (reference : Option NodeId) : Document :=
  let got := d.access e .insert
  got.2.insertBefore p got.1 reference

/-- Takes a block out of `p`. -/
def unmountBlock (d : Document) (e : Block) (p : NodeId) : Document :=
  let got := d.access e .remove
  got.2.removeChild p got.1

/-- Where a group is on its way. -/
inductive Seat where
  /-- It has not been put anywhere yet. -/
  | stowed
  /-- It is in `p`, between some other children. -/
  | mounted (p : NodeId) (front behind : List NodeId)
  /-- It has been taken out of `p`. -/
  | removed (p : NodeId)

/-- A document with a group on its way: its nodes, in order and with the nodes that have been put between
them, and where it is. -/
structure Journey where
  document : Document
  block : List NodeId
  seat : Seat

namespace Journey

/-- What can happen on the way of a group. -/
inductive Step (g : Group) : Journey → Journey → Prop where
  /-- The group is put into an element that is not inside any of its nodes, in front of a child that is none
  of them, or at the end. -/
  | mount {d : Document} {block : List NodeId} {seat : Seat} {p : NodeId} {front behind : List NodeId}
      (hp : d.Has p) (helement : d.isElement p = true) (houtside : ∀ n ∈ block, ¬d.Above p n)
      (hsplit : (d.children p).filter (· ∉ block) = front ++ behind) :
      Step g ⟨d, block, seat⟩
        ⟨d.mountBlock (.group g) p behind.head?, block, .mounted p front behind⟩
  /-- The group is taken out of the element. -/
  | unmount {d : Document} {block : List NodeId} {p : NodeId} {front behind : List NodeId} :
      Step g ⟨d, block, .mounted p front behind⟩ ⟨d.unmountBlock (.group g) p, block, .removed p⟩
  /-- A node that is none of the group is put behind the first node of the group, and in front of another
  one. It may have been anywhere, also around the group or between its nodes. -/
  | insert {d : Document} {block : List NodeId} {p x r : NodeId} {front behind : List NodeId}
      (hr : r ∈ block.tail) (hx : d.Has x)
      (hforeign : ∀ n ∈ d.entries x, n ∉ g.members ∧ ¬d.Above p n) :
      Step g ⟨d, block, .mounted p front behind⟩
        ⟨d.insertBefore p x (some r), putBefore (d.entries x) r block,
          .mounted p (front.filter (· ∉ d.entries x)) (behind.filter (· ∉ d.entries x))⟩
  /-- A node between those of the group is taken away. -/
  | remove {d : Document} {block : List NodeId} {p x : NodeId} {front behind : List NodeId}
      (hx : x ∈ block) (hforeign : x ∉ g.members) :
      Step g ⟨d, block, .mounted p front behind⟩
        ⟨d.removeChild p x, block.filter (· != x), .mounted p front behind⟩

/-- What can come about when a group sets out from its fragment. -/
inductive Reached (g : Group) (d : Document) : Journey → Prop where
  | start : Reached g d ⟨d, g.members, .stowed⟩
  | step {j j' : Journey} (h : Reached g d j) (hstep : Step g j j') : Reached g d j'

end Journey

variable {d d' : Document} {p n x r f q : NodeId} {g : Group} {block front behind nodes l : List NodeId}
  {seat : Seat}

/-! ### Putting nodes into a list -/

theorem putBefore_of_notMem (h : r ∉ l) : putBefore nodes r l = l.filter (· ∉ nodes) := by
  induction l with
  | nil => rfl
  | cons m l ih =>
    rw [List.mem_cons, not_or] at h
    rw [putBefore, List.flatMap_cons, if_neg (Ne.symm h.1), List.nil_append]
    by_cases hm : m ∈ nodes
    · rw [if_pos hm, List.filter_cons_of_neg (by simpa using hm)]
      exact ih h.2
    · rw [if_neg hm, List.filter_cons_of_pos (by simpa using hm)]
      exact congrArg (m :: ·) (ih h.2)

theorem putBefore_append_cons (nodes : List NodeId) {ahead after : List NodeId}
    (h : (ahead ++ r :: after).Nodup) :
    putBefore nodes r (ahead ++ r :: after)
      = ahead.filter (· ∉ nodes) ++ nodes ++ (r :: after).filter (· ∉ nodes) := by
  have hahead : r ∉ ahead := fun hr => List.disjoint_of_nodup_append h hr List.mem_cons_self
  have hafter : r ∉ after := (List.nodup_cons.1 (List.nodup_append.1 h).2.1).1
  rw [putBefore, List.flatMap_append, List.flatMap_cons, if_pos rfl]
  rw [show ahead.flatMap _ = putBefore nodes r ahead from rfl, putBefore_of_notMem hahead,
    show after.flatMap _ = putBefore nodes r after from rfl, putBefore_of_notMem hafter]
  by_cases hr : r ∈ nodes
  · rw [if_pos hr, List.filter_cons_of_neg (by simpa using hr)]
    simp
  · rw [if_neg hr, List.filter_cons_of_pos (by simpa using hr)]
    simp

/-! ### Inserting a node or a fragment -/

theorem mem_entries (h : n ∈ d.entries x) : n = x ∧ d.isFragment x = false ∨
    d.isFragment x = true ∧ n ∈ d.children x := by
  rw [entries] at h
  split at h
  · rename_i hx
    exact .inr ⟨hx, h⟩
  · rename_i hx
    exact .inl ⟨List.mem_singleton.1 h, by simpa using hx⟩

/-- The nodes that a node stands for can be put into an element that is not inside any of them. -/
theorem adoptable_entries (hf : d.Forest) (hp : d.Has p) (helement : d.isElement p = true) (hx : d.Has x)
    (houtside : ∀ n ∈ d.entries x, ¬d.Above p n) : ∀ n ∈ d.entries x, d.Adoptable p n := by
  intro n hn
  refine ⟨hp, ?_, leaf?_of_isElement helement, ?_, houtside n hn⟩
  · rcases mem_entries hn with ⟨rfl, -⟩ | ⟨-, hchild⟩
    · exact hx
    · exact has_of_parent? (hf.parent_of_mem hchild)
  · rcases mem_entries hn with ⟨rfl, hsolid⟩ | ⟨-, hchild⟩
    · exact hsolid
    · exact hf.solid (hf.parent_of_mem hchild)

/-- What inserting a node or a fragment comes to. -/
theorem inserted_entries (h : Insertable d p (d.entries x) front behind) (helement : d.isElement p = true) :
    Inserted d (d.insertBefore p x behind.head?) p (d.entries x) front behind := by
  by_cases hx : d.isFragment x = true
  · have hentries : d.entries x = d.children x := if_pos hx
    rw [hentries] at h ⊢
    refine inserted_insertBefore_fragment h hx fun n hn he => ?_
    -- a child of the fragment is no child of the element
    have hchild : n ∈ d.children p := by
      rw [h.children]
      exact List.mem_append_right _ (List.mem_of_mem_head? he)
    have heq : x = p := Option.some.inj
      ((h.forest.parent_of_mem hn).symm.trans (h.forest.parent_of_mem hchild))
    subst heq
    exact absurd hx (by simp [isFragment_of_isElement helement])
  · have hentries : d.entries x = [x] := if_neg hx
    rw [hentries] at h ⊢
    exact inserted_insertBefore h

/-! ### What a group spans -/

theorem first_mem_members (h : (Block.group g).Spans block) : g.first ∈ g.members := by
  obtain ⟨m, rest, hm⟩ := List.exists_cons_of_ne_nil h.1
  simp [Group.first, hm]

theorem last_mem_members (h : (Block.group g).Spans block) : g.last ∈ g.members := by
  rw [Group.last, List.getLastD_eq_getLast?, List.getLast?_eq_some_getLast h.1]
  exact List.getLast_mem h.1

/-- The first and the last node stay the ends of a list when others are taken out of it. -/
theorem head?_filter_of_notMem (h : l.head? = some n) (hn : n ∉ nodes) :
    (l.filter (· ∉ nodes)).head? = some n := by
  obtain ⟨rest, rfl⟩ := List.head?_eq_some_iff.1 h
  simp [hn]

theorem getLast?_filter_of_notMem (h : l.getLast? = some n) (hn : n ∉ nodes) :
    (l.filter (· ∉ nodes)).getLast? = some n := by
  obtain ⟨rest, rfl⟩ := List.getLast?_eq_some_iff.1 h
  simp [hn]

theorem sublist_filter_of_disjoint (h : g.members.Sublist block) (hforeign : ∀ n ∈ nodes, n ∉ g.members) :
    g.members.Sublist (block.filter (· ∉ nodes)) := by
  have hsub := h.filter (· ∉ nodes)
  rwa [filter_notMem_of_disjoint hforeign] at hsub

/-- A group spans what is left when nodes that are not its own are taken out. -/
theorem spans_filter (h : (Block.group g).Spans block) (hforeign : ∀ n ∈ nodes, n ∉ g.members) :
    (Block.group g).Spans (block.filter (· ∉ nodes)) := by
  obtain ⟨hne, hnodup, hsub, hhead, hlast⟩ := id h
  exact ⟨hne, hnodup.filter _, sublist_filter_of_disjoint hsub hforeign,
    head?_filter_of_notMem hhead fun hm => hforeign _ hm (first_mem_members h),
    getLast?_filter_of_notMem hlast fun hm => hforeign _ hm (last_mem_members h)⟩

/-- A group spans the nodes that are put behind its first one and in front of another. -/
theorem spans_putBefore (h : (Block.group g).Spans block) (hr : r ∈ block.tail)
    (hforeign : ∀ n ∈ nodes, n ∉ g.members) (hnodup : (putBefore nodes r block).Nodup) :
    (Block.group g).Spans (putBefore nodes r block) := by
  obtain ⟨hne, hblock, hsub, hhead, hlast⟩ := id h
  obtain ⟨tail, rfl⟩ := List.head?_eq_some_iff.1 hhead
  obtain ⟨ahead, after, rfl⟩ := List.append_of_mem (show r ∈ tail from hr)
  have hput := putBefore_append_cons nodes (show (g.first :: ahead ++ r :: after).Nodup from hblock)
  rw [List.cons_append] at hput
  rw [hput] at hnodup ⊢
  have hfirst : g.first ∉ nodes := fun hm => hforeign _ hm (first_mem_members h)
  have hlast' : (r :: after).getLast? = some g.last := by
    rw [← hlast, ← List.cons_append, List.getLast?_append_of_ne_nil _ (List.cons_ne_nil r after)]
  have hkept := sublist_filter_of_disjoint hsub hforeign
  refine ⟨hne, hnodup, ?_, ?_, ?_⟩
  · rw [← List.cons_append, List.filter_append] at hkept
    exact hkept.trans ((List.sublist_append_left _ _).append (.refl _))
  · rw [List.filter_cons_of_pos (by simpa using hfirst)]
    rfl
  · have hend := getLast?_filter_of_notMem hlast' fun hm => hforeign _ hm (last_mem_members h)
    rw [List.getLast?_append_of_ne_nil _ (by rintro he; rw [he] at hend; cases hend), hend]

/-! ### Where a group is -/

/-- The nodes of a group are where they should be. -/
def Placed (d : Document) (g : Group) (block : List NodeId) : Seat → Prop
  | .stowed => d.Whole g block
  | .mounted p front behind =>
    d.Has p ∧ d.isElement p = true ∧ d.children g.fragment = [] ∧ d.children p = front ++ block ++ behind
  | .removed p => d.isElement p = true ∧ d.children g.fragment = block.tail ∧ d.parent? g.first = none

/-- A group on its way is in order. -/
structure Journey.IsSound (g : Group) (j : Journey) : Prop where
  forest : j.document.Forest
  holds : j.document.Holds (.group g) j.block
  placed : j.document.Placed g j.block j.seat

theorem ne_fragment (h : d.Holds (.group g) block) (helement : d.isElement p = true) : p ≠ g.fragment := by
  rintro rfl
  have hfragment := h.fragment _ (List.mem_singleton_self _)
  rw [isFragment_of_isElement helement] at hfragment
  cases hfragment

theorem Placed.gatherable (h : d.Placed g block seat) (hholds : d.Holds (.group g) block) :
    d.Gatherable (.group g) block := by
  cases seat with
  | stowed => exact .inl h
  | mounted p front behind =>
    exact .inr (.inr ⟨p, h.2.2.1, ne_fragment hholds h.2.1, front, behind, h.2.2.2⟩)
  | removed p => exact .inr (.inl ⟨h.2.1, by rw [h.2.2]; simp⟩)

namespace Journey.IsSound

/-- However a group has been placed, it can be mounted as a whole. -/
theorem mount (h : IsSound g ⟨d, block, seat⟩) (hp : d.Has p) (helement : d.isElement p = true)
    (houtside : ∀ n ∈ block, ¬d.Above p n)
    (hsplit : (d.children p).filter (· ∉ block) = front ++ behind) :
    IsSound g ⟨d.mountBlock (.group g) p behind.head?, block, .mounted p front behind⟩ := by
  obtain ⟨hf, hholds, hplaced⟩ := h
  have hgathered := gathered_collect hf hholds (hplaced.gatherable hholds)
  have hr := hgathered.relinked
  have hne := ne_fragment hholds helement
  have hapart : ∀ n ∈ block, n ∉ front ++ behind := fun n hn hm => by
    rw [← hsplit] at hm
    simp [hn] at hm
  have hadopt : ∀ n ∈ block, (d.collect g).Adoptable p n := fun n hn =>
    { has_parent := hr.has.2 hp
      has_child := hr.has.2 (hholds.has n hn)
      inner := by rw [hr.leaf?, leaf?_of_isElement helement]
      solid := by rw [hr.isFragment, hholds.solid n hn]
      outside := fun ha => houtside n hn <| Above.congr (fun a hpa => by
        rw [hgathered.parent?, if_neg fun hm => houtside a hm hpa]) ha }
  have hinsertable : Insertable (d.collect g) p ((d.collect g).children g.fragment) front behind := by
    rw [hgathered.children_self]
    exact ⟨hgathered.forest, (hgathered.children_of_ne p hne).trans hsplit, hadopt, hholds.spans.2.1⟩
  have hinserted := inserted_insertBefore_fragment hinsertable
    (by rw [hr.isFragment, hholds.fragment _ (List.mem_singleton_self _)])
    (by
      rw [hgathered.children_self]
      exact fun n hn he => hapart n hn (List.mem_append_right _ (List.mem_of_mem_head? he)))
  rw [hgathered.children_self] at hinserted
  have hrelinked := hr.trans hinserted.relinked
  refine ⟨hinserted.forest, hholds.relinked hrelinked, hrelinked.has.2 hp, ?_, ?_, ?_⟩
  · exact (hrelinked.isElement p).trans helement
  · refine (hinserted.children_of_ne _ hne.symm).trans ?_
    rw [hgathered.children_self, List.filter_eq_nil_iff]
    simp
  · have hfront : front.filter (· ∉ block) = front :=
      filter_notMem_of_disjoint fun n hn hm => hapart n hn (List.mem_append_left _ hm)
    have hbehind : behind.filter (· ∉ block) = behind :=
      filter_notMem_of_disjoint fun n hn hm => hapart n hn (List.mem_append_right _ hm)
    refine hinserted.children_self.trans ?_
    rw [hfront, hbehind]

/-- Taking the group out leaves its first node alone and puts all others into the fragment. -/
theorem unmount (h : IsSound g ⟨d, block, .mounted p front behind⟩) :
    IsSound g ⟨d.unmountBlock (.group g) p, block, .removed p⟩ := by
  obtain ⟨hf, hholds, hp, helement, hempty, hchildren⟩ := h
  have hne := ne_fragment hholds helement
  have hinserted := inserted_collectTail hf hholds ⟨hempty, hne, front, behind, hchildren⟩
  have hnotin : g.first ∉ block.tail := by
    have hnodup := hholds.spans.2.1
    rw [hholds.eq_cons] at hnodup
    exact (List.nodup_cons.1 hnodup).1
  have hparent : (d.collectTail g).parent? g.first = some p := by
    rw [hinserted.parent?, if_neg hnotin]
    exact hf.parent_of_mem (by rw [hchildren]; simp [hholds.first_mem])
  have hunmount : d.unmountBlock (.group g) p = ((d.collectTail g).detach g.first).counted 1 :=
    removeChild_eq hparent
  rw [hunmount]
  have hrelinked := (hinserted.relinked.trans (relinked_detach _ g.first)).trans (relinked_counted _ 1)
  refine ⟨(hinserted.forest.detach g.first).counted 1, hholds.relinked hrelinked, ?_, ?_, ?_⟩
  · exact (hrelinked.isElement p).trans helement
  · rw [children_counted, children_detach hinserted.forest, hinserted.children_self,
      List.filter_nil, List.append_nil, List.nil_append]
    exact filter_ne_of_notMem hnotin
  · rw [parent?_counted, parent?_detach, if_pos rfl]

/-- Nodes that are put between those of the group become part of the block. -/
theorem insert (h : IsSound g ⟨d, block, .mounted p front behind⟩) (hr : r ∈ block.tail) (hx : d.Has x)
    (hforeign : ∀ n ∈ d.entries x, n ∉ g.members ∧ ¬d.Above p n) :
    IsSound g ⟨d.insertBefore p x (some r), putBefore (d.entries x) r block,
      .mounted p (front.filter (· ∉ d.entries x)) (behind.filter (· ∉ d.entries x))⟩ := by
  obtain ⟨hf, hholds, hp, helement, hempty, hchildren⟩ := h
  obtain ⟨ahead, after, hsplit⟩ := List.append_of_mem (List.mem_of_mem_tail hr)
  have hput := putBefore_append_cons (d.entries x) (hsplit ▸ hholds.spans.2.1)
  have hnodup : (d.entries x).Nodup := by
    rw [entries]
    split
    · exact hf.nodup x
    · exact List.nodup_singleton x
  have hadopt := adoptable_entries hf hp helement hx fun n hn => (hforeign n hn).2
  have hinsertable : Insertable d p (d.entries x) (front ++ ahead) (r :: after ++ behind) :=
    ⟨hf, by rw [hchildren, hsplit]; simp, hadopt, hnodup⟩
  have hinserted := inserted_entries hinsertable helement
  have hr' := hinserted.relinked
  have hrow : (d.insertBefore p x (some r)).children p = front.filter (· ∉ d.entries x)
      ++ putBefore (d.entries x) r block ++ behind.filter (· ∉ d.entries x) := by
    rw [hsplit, hput]
    refine hinserted.children_self.trans ?_
    simp only [List.filter_append, List.append_assoc]
  have hblock : (putBefore (d.entries x) r block).Nodup := by
    have hall := hinserted.forest.nodup p
    rw [show (r :: after ++ behind).head? = some r from rfl, hrow] at hall
    exact (List.nodup_append.1 (List.nodup_append.1 hall).1).2.1
  have hmem : ∀ n ∈ putBefore (d.entries x) r block, n ∈ block ∨ n ∈ d.entries x := by
    intro n hn
    rw [hsplit, hput, List.append_assoc, List.mem_append, List.mem_append] at hn
    rw [hsplit, List.mem_append]
    rcases hn with hn | hn | hn
    · exact .inl (.inl (List.mem_of_mem_filter hn))
    · exact .inr hn
    · exact .inl (.inr (List.mem_of_mem_filter hn))
  refine ⟨hinserted.forest, ⟨?_, fun n hn => ?_, fun n hn => ?_, ?_, ?_⟩, hr'.has.2 hp, ?_, ?_, hrow⟩
  · exact spans_putBefore hholds.spans hr (fun n hn => (hforeign n hn).1) hblock
  · exact hr'.has.2 ((hmem n hn).elim (hholds.has n) fun hn => (hadopt n hn).has_child)
  · exact (hr'.isFragment n).trans ((hmem n hn).elim (hholds.solid n) fun hn => (hadopt n hn).solid)
  · exact (hholds.relinked hr').has_fragment
  · exact (hholds.relinked hr').fragment
  · exact (hr'.isElement p).trans helement
  · refine (hinserted.children_of_ne _ (ne_fragment hholds helement).symm).trans ?_
    rw [hempty]
    rfl

/-- A node between those of the group is taken out of the block. -/
theorem remove (h : IsSound g ⟨d, block, .mounted p front behind⟩) (hx : x ∈ block)
    (hforeign : x ∉ g.members) :
    IsSound g ⟨d.removeChild p x, block.filter (· != x), .mounted p front behind⟩ := by
  obtain ⟨hf, hholds, hp, helement, hempty, hchildren⟩ := h
  have hparent : d.parent? x = some p := hf.parent_of_mem (by rw [hchildren]; simp [hx])
  rw [removeChild_eq hparent]
  have hrelinked := (relinked_detach d x).trans (relinked_counted _ 1)
  have hfilter : ∀ l : List NodeId, l.filter (· ∉ [x]) = l.filter (· != x) := fun l => by
    rw [filter_notMem_cons, filter_notMem_nil]
  have hnodup := hf.nodup p
  rw [hchildren, List.append_assoc] at hnodup
  have hapart : x ∉ front ∧ x ∉ behind :=
    ⟨fun hm => List.disjoint_of_nodup_append hnodup hm (List.mem_append_left _ hx),
      fun hm => List.disjoint_of_nodup_append (List.nodup_append.1 hnodup).2.1 hx hm⟩
  have hspans := spans_filter hholds.spans (show ∀ n ∈ [x], n ∉ g.members by simpa using hforeign)
  rw [hfilter] at hspans
  have hholds' := hholds.relinked hrelinked
  refine ⟨(hf.detach x).counted 1, ⟨hspans, fun n hn => hholds'.has n (List.mem_of_mem_filter hn),
    fun n hn => hholds'.solid n (List.mem_of_mem_filter hn), hholds'.has_fragment, hholds'.fragment⟩,
    hrelinked.has.2 hp, ?_, ?_, ?_⟩
  · exact (hrelinked.isElement p).trans helement
  · rw [children_counted, children_detach hf, hempty]
    rfl
  · rw [children_counted, children_detach hf, hchildren, List.filter_append, List.filter_append,
      filter_ne_of_notMem hapart.1, filter_ne_of_notMem hapart.2]

theorem step {j j' : Journey} (h : IsSound g j) (hstep : Step g j j') : IsSound g j' := by
  cases hstep with
  | mount hp helement houtside hsplit => exact h.mount hp helement houtside hsplit
  | unmount => exact h.unmount
  | insert hr hx hforeign => exact h.insert hr hx hforeign
  | remove hx hforeign => exact h.remove hx hforeign

end Journey.IsSound

/-! ### All the way -/

/-- A group that is whole in its fragment is ready to set out. -/
theorem Journey.isSound_start (hf : d.Forest) (hfragment : d.isFragment g.fragment = true)
    (hmembers : d.children g.fragment = g.members) (hne : g.members ≠ []) :
    IsSound g ⟨d, g.members, .stowed⟩ := by
  obtain ⟨m, rest, hm⟩ := List.exists_cons_of_ne_nil hne
  have hparent : ∀ n ∈ g.members, d.parent? n = some g.fragment := fun n hn =>
    hf.parent_of_mem (by rwa [hmembers])
  refine ⟨hf, ⟨⟨hne, hmembers ▸ hf.nodup _, .refl _, ?_, ?_⟩, fun n hn => has_of_parent? (hparent n hn),
    fun n hn => hf.solid (hparent n hn), fun f hf' => ?_, fun f hf' => ?_⟩, hmembers⟩
  · simp [Group.first, hm]
  · rw [Group.last, List.getLastD_eq_getLast?, List.getLast?_eq_some_getLast hne]
    rfl
  · rw [List.mem_singleton.1 hf']
    exact has_of_mem_children (show m ∈ d.children g.fragment by rw [hmembers, hm]; simp)
  · rw [List.mem_singleton.1 hf']
    exact hfragment

/-- A group is as its way has been: it has its own nodes in order, with others between them, and all of them
side by side in the element that it has been put into and nowhere else, or none of them in the element that it
has been taken out of. -/
def Journey.IsIntact (g : Group) (j : Journey) : Prop :=
  (Block.group g).Spans j.block ∧
    match j.seat with
    | .stowed => j.document.children g.fragment = j.block
    | .mounted p front behind =>
      j.document.children p = front ++ j.block ++ behind ∧
        ∀ q, q ≠ p → ∀ n ∈ j.block, n ∉ j.document.children q
    | .removed p => ∀ n ∈ j.block, n ∉ j.document.children p

theorem Journey.IsSound.isIntact {j : Journey} (h : IsSound g j) : j.IsIntact g := by
  obtain ⟨d, block, seat⟩ := j
  obtain ⟨hf, hholds, hplaced⟩ := h
  refine ⟨hholds.spans, ?_⟩
  cases seat with
  | stowed => exact hplaced
  | mounted p front behind =>
    obtain ⟨-, -, -, hchildren⟩ := hplaced
    refine ⟨hchildren, fun q hq n hn hm => hq ?_⟩
    have hparent : d.parent? n = some p := hf.parent_of_mem (by
      rw [hchildren]
      exact List.mem_append_left _ (List.mem_append_right _ hn))
    exact Option.some.inj ((hf.parent_of_mem hm).symm.trans hparent)
  | removed p =>
    obtain ⟨helement, htail, hfirst⟩ := hplaced
    intro n hn hm
    have hparent := hf.parent_of_mem hm
    rw [hholds.eq_cons, List.mem_cons] at hn
    rcases hn with rfl | hn
    · rw [hfirst] at hparent
      cases hparent
    · -- the others are in the fragment
      have hstowed := hf.parent_of_mem (show n ∈ d.children g.fragment by rwa [htail])
      exact ne_fragment hholds helement (Option.some.inj (hparent.symm.trans hstowed))

/-- Whatever way a group has gone since all of it was in its fragment, it is as a whole where it should be. -/
theorem Journey.Reached.group_intact {j : Journey} (hf : d.Forest) (hfragment : d.isFragment g.fragment = true)
    (hmembers : d.children g.fragment = g.members) (hne : g.members ≠ []) (h : Reached g d j) :
    j.IsIntact g := by
  have hsound : IsSound g j := by
    induction h with
    | start => exact isSound_start hf hfragment hmembers hne
    | step _ hstep ih => exact ih.step hstep
  exact hsound.isIntact

/-- An element, a fragment with two texts, and a text on its own. -/
def twoTexts : Document :=
  let d := (((((Document.empty.create (.element "main" .html) "").2.create .fragment "").2.create .text
    "a").2.create .text "b").2.create .text "c").2
  (d.attach ⟨1⟩ ⟨2⟩ none).attach ⟨1⟩ ⟨3⟩ none

theorem forest_twoTexts : twoTexts.Forest := by
  have htexts := ((((Document.forest_empty.create (.element "main" .html) "").create .fragment "").create
    .text "a").create .text "b").create .text "c"
  refine (htexts.attach ?_ none).attach ?_ none
  all_goals exact .of_root (by decide) (by decide) (by decide) (by decide) (by decide) (by decide)

/-- The group of the two texts in the fragment. -/
def twoTextsGroup : Group := ⟨0, ⟨1⟩, [⟨2⟩, ⟨3⟩]⟩

/-- The texts have been put into the element, and the third one between them. -/
def threeTexts : Document :=
  (twoTexts.mountBlock (.group twoTextsGroup) ⟨0⟩ none).insertBefore ⟨0⟩ ⟨4⟩ (some ⟨3⟩)

theorem reached_threeTexts : Journey.Reached twoTextsGroup twoTexts
    ⟨threeTexts, [⟨2⟩, ⟨4⟩, ⟨3⟩], .mounted ⟨0⟩ [] []⟩ := by
  have hmount := @Journey.Step.mount twoTextsGroup twoTexts [⟨2⟩, ⟨3⟩] .stowed ⟨0⟩ [] [] (by decide)
    (by decide) (fun n hn ha => absurd hn (by rw [ha.eq_of_root (by decide)]; decide)) (by decide)
  have hentries : (twoTexts.mountBlock (.group twoTextsGroup) ⟨0⟩ none).entries ⟨4⟩ = [⟨4⟩] := by decide
  have hinsert := @Journey.Step.insert twoTextsGroup (twoTexts.mountBlock (.group twoTextsGroup) ⟨0⟩ none)
    [⟨2⟩, ⟨3⟩] ⟨0⟩ ⟨4⟩ ⟨3⟩ [] [] (by decide) (by decide) (by
      rw [hentries]
      intro n hn
      rw [List.mem_singleton.1 hn]
      exact ⟨by decide, fun ha => absurd (ha.eq_of_root (by decide)) (by decide)⟩)
  rw [hentries] at hinsert
  exact (Journey.Reached.start.step hmount).step hinsert

/-- The texts are taken out and put back. -/
theorem intact_threeTexts :
    let removed := threeTexts.unmountBlock (.group twoTextsGroup) ⟨0⟩
    let again : Journey :=
      ⟨removed.mountBlock (.group twoTextsGroup) ⟨0⟩ none, [⟨2⟩, ⟨4⟩, ⟨3⟩], .mounted ⟨0⟩ [] []⟩
    twoTexts.isFragment twoTextsGroup.fragment = true ∧
      twoTexts.children twoTextsGroup.fragment = twoTextsGroup.members ∧
      Journey.Reached twoTextsGroup twoTexts again ∧ again.IsIntact twoTextsGroup := by
  intro removed again
  have hremove := @Journey.Step.unmount twoTextsGroup threeTexts [⟨2⟩, ⟨4⟩, ⟨3⟩] ⟨0⟩ [] []
  have hmount := @Journey.Step.mount twoTextsGroup (threeTexts.unmountBlock (.group twoTextsGroup) ⟨0⟩)
    [⟨2⟩, ⟨4⟩, ⟨3⟩] (.removed ⟨0⟩) ⟨0⟩ [] [] (by decide) (by decide)
    (fun n hn ha => absurd hn (by rw [ha.eq_of_root (by decide)]; decide)) (by decide)
  have hagain : Journey.Reached twoTextsGroup twoTexts again :=
    (reached_threeTexts.step hremove).step hmount
  exact ⟨by decide, by decide, hagain,
    hagain.group_intact forest_twoTexts (by decide) (by decide) (List.cons_ne_nil _ _)⟩

end LiveMarkup.Document
