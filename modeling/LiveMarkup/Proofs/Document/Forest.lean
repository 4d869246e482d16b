import LiveMarkup.Document.Edit
import Mathlib.Data.List.Basic
import Mathlib.Data.List.Nodup
/-!
# The nodes of a document form a forest

A node is a child of its parent and of no other node, children occur once, only elements and
fragments have children, and nobody is above itself. `Forest` says so. Taking a node away from its
parent and putting it into another one keep it, and each of them changes the lists of children and
the parents in one way only: `children_detach`, `parent?_detach`, `children_attach` and
`parent?_attach` are all that later modules need to know of these two.
-/

namespace LiveMarkup

/-- What a node is apart from where it stands. -/
def Node.bare (r : Node) : Node :=
  { r with parent := none, children := [] }

namespace Document

variable {d d' d'' : Document} {n m p q r : NodeId}

/-- The document has a node of this identity. -/
def Has (d : Document) (n : NodeId) : Prop :=
  n.index < d.nodes.size

instance (d : Document) (n : NodeId) : Decidable (d.Has n) :=
  Nat.decLt _ _

/-- `Above d n a` says that `a` is `n` or an ancestor of it. -/
inductive Above (d : Document) (n : NodeId) : NodeId → Prop where
  | self : Above d n n
  | up {m p : NodeId} : Above d n m → d.parent? m = some p → Above d n p

/-- Parents and children agree, and no node is above its parent. -/
structure Forest (d : Document) : Prop where
  parent_of_mem : ∀ {p n}, n ∈ d.children p → d.parent? n = some p
  mem_of_parent : ∀ {p n}, d.parent? n = some p → n ∈ d.children p
  nodup : ∀ p, (d.children p).Nodup
  inner : ∀ {p n}, d.parent? n = some p → d.leaf? p = none
  solid : ∀ {p n}, d.parent? n = some p → d.isFragment n = false
  acyclic : ∀ {p n}, d.parent? n = some p → ¬ d.Above p n

/-- The documents have the same nodes, and only parents and children may be others. -/
structure Relinked (d d' : Document) : Prop where
  size : d'.nodes.size = d.nodes.size
  bare : ∀ n, (d'.node n).bare = (d.node n).bare
  attributes : d'.attributes = d.attributes
  groups : d'.groups = d.groups
  cells : d'.cells = d.cells

/-! ### Reading an updated document -/

theorem node_of_not_has (h : ¬ d.Has n) : d.node n = default := by
  have hn : d.nodes.size ≤ n.index := Nat.le_of_not_lt h
  simp [node, Array.getD_eq_getD_getElem?, hn]

theorem node_update (d : Document) (n m : NodeId) (f : Node → Node) :
    (d.update n f).node m = if m = n ∧ d.Has n then f (d.node m) else d.node m := by
  by_cases hm : m = n
  · subst hm
    by_cases hn : d.Has m
    · rw [if_pos ⟨rfl, hn⟩, node_update_self d m f hn]
    · have hn' : ¬ (d.update m f).Has m := by rwa [Has, size_nodes_update]
      rw [if_neg fun h => hn h.2, node_of_not_has hn, node_of_not_has hn']
  · rw [if_neg fun h => hm h.1, node_update_of_ne d f hm]

@[simp] theorem has_update (f : Node → Node) : (d.update n f).Has m ↔ d.Has m := by
  rw [Has, Has, size_nodes_update]

theorem has_of_mem_children (h : n ∈ d.children p) : d.Has p := by
  by_contra hp
  rw [children, node_of_not_has hp] at h
  cases h

theorem has_of_parent? (h : d.parent? n = some p) : d.Has n := by
  by_contra hn
  rw [parent?, node_of_not_has hn] at h
  cases h

/-! ### Moving nodes changes nothing but links -/

namespace Relinked

theorem refl (d : Document) : Relinked d d :=
  ⟨rfl, fun _ => rfl, rfl, rfl, rfl⟩

theorem trans (h : Relinked d d') (h' : Relinked d' d'') : Relinked d d'' where
  size := h'.size.trans h.size
  bare n := (h'.bare n).trans (h.bare n)
  attributes := h'.attributes.trans h.attributes
  groups := h'.groups.trans h.groups
  cells := h'.cells.trans h.cells

theorem kind (h : Relinked d d') (n : NodeId) : d'.kind n = d.kind n := by
  show (d'.node n).bare.kind = (d.node n).bare.kind
  rw [h.bare n]

theorem data (h : Relinked d d') (n : NodeId) : (d'.node n).data = (d.node n).data := by
  show (d'.node n).bare.data = (d.node n).bare.data
  rw [h.bare n]

theorem attributesOf (h : Relinked d d') (n : NodeId) :
    (d'.node n).attributes = (d.node n).attributes := by
  show (d'.node n).bare.attributes = (d.node n).bare.attributes
  rw [h.bare n]

theorem attr (h : Relinked d d') (a : AttributeId) : d'.attr a = d.attr a := by
  rw [Document.attr, h.attributes, Document.attr]

theorem has (h : Relinked d d') : d'.Has n ↔ d.Has n := by
  rw [Has, Has, h.size]

theorem leaf? (h : Relinked d d') (n : NodeId) : d'.leaf? n = d.leaf? n := by
  rw [Document.leaf?, h.kind, Document.leaf?]

theorem isFragment (h : Relinked d d') (n : NodeId) : d'.isFragment n = d.isFragment n := by
  rw [Document.isFragment, h.kind, Document.isFragment]

theorem isElement (h : Relinked d d') (n : NodeId) : d'.isElement n = d.isElement n := by
  rw [Document.isElement, h.kind, Document.isElement]

end Relinked

theorem relinked_update (d : Document) (n : NodeId) (f : Node → Node)
    (hf : ∀ r, (f r).bare = r.bare) : Relinked d (d.update n f) where
  size := size_nodes_update d n f
  bare m := by
    rw [node_update]
    split
    · exact hf _
    · rfl
  attributes := rfl
  groups := rfl
  cells := rfl

theorem relinked_detach (d : Document) (n : NodeId) : Relinked d (d.detach n) := by
  unfold detach
  split
  · exact .refl d
  · refine Relinked.trans ?_ (relinked_update _ n _ fun _ => rfl)
    exact relinked_update d _ _ fun _ => rfl

theorem relinked_attach (d : Document) (p n : NodeId) (reference : Option NodeId) :
    Relinked d (d.attach p n reference) := by
  refine (relinked_detach d n).trans (Relinked.trans ?_ (relinked_update _ n _ fun _ => rfl))
  exact relinked_update _ p _ fun _ => rfl

theorem leaf?_of_isElement (h : d.isElement n = true) : d.leaf? n = none := by
  unfold isElement at h
  unfold leaf?
  split at h
  · rename_i hkind
    rw [hkind]
  · cases h

theorem isFragment_of_isElement (h : d.isElement n = true) : d.isFragment n = false := by
  unfold isElement at h
  split at h
  · rename_i hkind
    rw [isFragment, hkind]
    rfl
  · cases h

/-! ### Ancestors -/

namespace Above

theorem trans (h : Above d n m) (h' : Above d m p) : Above d n p := by
  induction h' with
  | self => exact h
  | up _ hp ih => exact ih.up hp

theorem of_parent (h : d.parent? n = some p) : Above d n p :=
  Above.self.up h

/-- What is above a node stays so if the nodes above it keep their parents. -/
theorem congr (h : ∀ a, Above d n a → d'.parent? a = d.parent? a) {a : NodeId}
    (ha : Above d' n a) : Above d n a := by
  induction ha with
  | self => exact .self
  | up _ hp ih => exact ih.up (by rw [← h _ ih]; exact hp)

/-- Nothing else is above a node without parent. -/
theorem eq_of_root {a : NodeId} (hn : d.parent? n = none) (h : Above d n a) : a = n := by
  induction h with
  | self => rfl
  | up _ hp ih =>
    rw [ih, hn] at hp
    cases hp

/-- Other nodes above the parent of a node are above the node. -/
theorem eq_or_of_parent (h : Above d n m) : m = n ∨ ∃ p, d.parent? n = some p ∧ Above d p m := by
  induction h with
  | self => exact .inl rfl
  | @up a b _ hp ih =>
    rcases ih with rfl | ⟨p, hn, ha⟩
    · exact .inr ⟨b, hp, .self⟩
    · exact .inr ⟨p, hn, ha.up hp⟩

end Above

theorem above_of_mem_climb {fuel : Nat} (h : m ∈ d.climb fuel n) : Above d n m := by
  induction fuel generalizing n with
  | zero => cases h
  | succ fuel ih =>
    rw [climb] at h
    rcases List.mem_cons.1 h with rfl | h
    · exact .self
    · cases hp : d.parent? n with
      | none => simp [hp] at h
      | some p =>
        simp only [hp] at h
        exact (Above.of_parent hp).trans (ih h)

/-- A node that is not above another one does not contain it. -/
theorem contains_eq_false (h : ¬ Above d m n) : d.contains n m = false := by
  rw [contains, Bool.eq_false_iff]
  intro hc
  exact h (above_of_mem_climb (List.contains_iff_mem.1 hc))

/-! ### Making a node -/

theorem forest_empty : Document.empty.Forest := by
  have hnode : ∀ n, Document.empty.node n = default := fun _ => rfl
  have hchildren : ∀ p, Document.empty.children p = [] := fun _ => rfl
  have hparent : ∀ n, Document.empty.parent? n = none := fun _ => rfl
  refine ⟨?_, ?_, ?_, ?_, ?_, ?_⟩
  · intro p n hn
    rw [hchildren] at hn
    cases hn
  · intro p n hp
    rw [hparent] at hp
    cases hp
  · intro p
    rw [hchildren]
    exact List.nodup_nil
  all_goals
    intro p n hp
    rw [hparent] at hp
    cases hp

/-- The identity of the next node that is made. -/
def next (d : Document) : NodeId :=
  ⟨d.nodes.size⟩

theorem not_has_next : ¬ d.Has d.next :=
  Nat.lt_irrefl _

theorem Has.ne_next (h : d.Has n) : n ≠ d.next := by
  rintro rfl
  exact not_has_next h

variable {kind : NodeKind} {data : String}

theorem create_fst : (d.create kind data).1 = d.next := rfl

theorem node_create (d : Document) (kind : NodeKind) (data : String) (n : NodeId) :
    (d.create kind data).2.node n = if n = d.next then Node.alone kind data else d.node n := by
  have hget : (d.create kind data).2.node n
      = ((d.nodes.push (Node.alone kind data))[n.index]?).getD default :=
    Array.getD_eq_getD_getElem? ..
  rw [hget, Array.getElem?_push, node, Array.getD_eq_getD_getElem?]
  by_cases hn : n = d.next
  · rw [if_pos hn, if_pos (by rw [hn]; rfl), Option.getD_some]
  · rw [if_neg hn, if_neg fun hi => hn (by cases n; cases hi; rfl)]

/-- A new node has no children, and no node below it. -/
@[simp] theorem children_create : (d.create kind data).2.children n = d.children n := by
  rw [children, node_create]
  split
  · rename_i hn
    rw [children, hn, node_of_not_has not_has_next]
    rfl
  · rfl

@[simp] theorem parent?_create : (d.create kind data).2.parent? n = d.parent? n := by
  rw [parent?, node_create]
  split
  · rename_i hn
    rw [parent?, hn, node_of_not_has not_has_next]
    rfl
  · rfl

theorem kind_create (h : d.Has n) : (d.create kind data).2.kind n = d.kind n := by
  rw [Document.kind, node_create, if_neg h.ne_next, Document.kind]

theorem kind_create_next : (d.create kind data).2.kind d.next = kind := by
  rw [Document.kind, node_create, if_pos rfl, Node.alone]

theorem Forest.create (hf : d.Forest) (kind : NodeKind) (data : String) :
    (d.create kind data).2.Forest where
  parent_of_mem h := by
    rw [children_create] at h
    rw [parent?_create]
    exact hf.parent_of_mem h
  mem_of_parent h := by
    rw [parent?_create] at h
    rw [children_create]
    exact hf.mem_of_parent h
  nodup p := by
    rw [children_create]
    exact hf.nodup p
  inner h := by
    rw [parent?_create] at h
    rw [leaf?, kind_create (has_of_mem_children (hf.mem_of_parent h))]
    exact hf.inner h
  solid h := by
    rw [parent?_create] at h
    rw [isFragment, kind_create (has_of_parent? h)]
    exact hf.solid h
  acyclic h ha := by
    rw [parent?_create] at h
    exact hf.acyclic h (Above.congr (fun _ _ => parent?_create) ha)

/-! ### Taking a node away -/

namespace Forest

theorem not_mem_children_of_ne (hf : d.Forest) (h : d.parent? n ≠ some p) : n ∉ d.children p :=
  fun hn => h (hf.parent_of_mem hn)

theorem mem_children_iff (hf : d.Forest) : n ∈ d.children p ↔ d.parent? n = some p :=
  ⟨hf.parent_of_mem, hf.mem_of_parent⟩

theorem filter_children (hf : d.Forest) (h : d.parent? n ≠ some p) :
    (d.children p).filter (· != n) = d.children p := by
  rw [List.filter_eq_self]
  intro m hm
  have hne : m ≠ n := fun he => hf.not_mem_children_of_ne h (he ▸ hm)
  simpa using hne

theorem children_eq_nil_of_leaf (hf : d.Forest) (h : d.leaf? p ≠ none) : d.children p = [] := by
  rw [List.eq_nil_iff_forall_not_mem]
  intro n hn
  exact h (hf.inner (hf.parent_of_mem hn))

end Forest

theorem parent?_detach (d : Document) (n m : NodeId) :
    (d.detach n).parent? m = if m = n then none else d.parent? m := by
  unfold detach
  cases hp : d.parent? n with
  | none =>
    by_cases hm : m = n
    · rw [if_pos hm, hm]
      exact hp
    · rw [if_neg hm]
  | some p =>
    simp only [parent?, node_update, has_update]
    by_cases hm : m = n
    · rw [if_pos ⟨hm, has_of_parent? hp⟩, if_pos hm]
    · rw [if_neg fun h => hm h.1, if_neg hm]
      split <;> rfl

theorem children_detach (hf : d.Forest) (n q : NodeId) :
    (d.detach n).children q = (d.children q).filter (· != n) := by
  unfold detach
  cases hp : d.parent? n with
  | none => exact (hf.filter_children (by rw [hp]; simp)).symm
  | some p =>
    have hhas : d.Has p := has_of_mem_children (hf.mem_of_parent hp)
    have hlink : ((d.update p fun r => { r with children := r.children.filter (· != n) }).update n
        fun r => { r with parent := none }).children q
        = (d.update p fun r => { r with children := r.children.filter (· != n) }).children q := by
      simp only [children, node_update (n := n)]
      split <;> rfl
    rw [hlink, children, node_update]
    by_cases hq : q = p
    · rw [if_pos ⟨hq, hhas⟩, children]
    · rw [if_neg fun h => hq h.1, hf.filter_children, children]
      rw [hp]
      exact fun he => hq (Option.some.inj he).symm

theorem above_of_above_detach {a : NodeId} (h : Above (d.detach n) m a) : Above d m a := by
  induction h with
  | self => exact .self
  | @up x y _ hp ih =>
    rw [parent?_detach] at hp
    split at hp
    · cases hp
    · exact ih.up hp

theorem Forest.detach (hf : d.Forest) (n : NodeId) : (d.detach n).Forest where
  parent_of_mem {p m} hm := by
    rw [children_detach hf, List.mem_filter] at hm
    rw [parent?_detach, if_neg (by simpa using hm.2)]
    exact hf.parent_of_mem hm.1
  mem_of_parent {p m} hp := by
    rw [parent?_detach] at hp
    split at hp
    · cases hp
    · rename_i hm
      rw [children_detach hf, List.mem_filter]
      exact ⟨hf.mem_of_parent hp, by simpa using hm⟩
  nodup p := by
    rw [children_detach hf]
    exact (hf.nodup p).filter _
  inner {p m} hp := by
    rw [parent?_detach] at hp
    split at hp
    · cases hp
    · rw [(relinked_detach d n).leaf?]
      exact hf.inner hp
  solid {p m} hp := by
    rw [parent?_detach] at hp
    split at hp
    · cases hp
    · rw [(relinked_detach d n).isFragment]
      exact hf.solid hp
  acyclic {p m} hp ha := by
    rw [parent?_detach] at hp
    split at hp
    · cases hp
    · exact hf.acyclic hp (above_of_above_detach ha)

/-! ### Putting a node somewhere -/

/-- `p` can have `n` as a child: it has children at all, and is not inside `n`. -/
structure Adoptable (d : Document) (p n : NodeId) : Prop where
  has_parent : d.Has p
  has_child : d.Has n
  inner : d.leaf? p = none
  solid : d.isFragment n = false
  outside : ¬ d.Above p n

namespace Adoptable

theorem ne (h : d.Adoptable p n) : n ≠ p := by
  rintro rfl
  exact h.outside .self

theorem of_root (hp : d.Has p) (hn : d.Has n) (hinner : d.leaf? p = none)
    (hsolid : d.isFragment n = false) (hroot : d.parent? p = none) (hne : n ≠ p) :
    d.Adoptable p n :=
  ⟨hp, hn, hinner, hsolid, fun ha => hne (ha.eq_of_root hroot)⟩

theorem contains_eq_false (h : d.Adoptable p n) : d.contains n p = false :=
  Document.contains_eq_false h.outside

theorem detach (h : d.Adoptable p n) (m : NodeId) : (d.detach m).Adoptable p n where
  has_parent := (relinked_detach d m).has.2 h.has_parent
  has_child := (relinked_detach d m).has.2 h.has_child
  inner := by rw [(relinked_detach d m).leaf?, h.inner]
  solid := by rw [(relinked_detach d m).isFragment, h.solid]
  outside ha := h.outside (above_of_above_detach ha)

end Adoptable

theorem mem_placeBefore {l : List NodeId} : m ∈ placeBefore r n l ↔ m = n ∨ m ∈ l := by
  induction l with
  | nil => simp [placeBefore]
  | cons x rest ih =>
    rw [placeBefore]
    split
    · simp
    · rw [List.mem_cons, ih, List.mem_cons]
      tauto

theorem mem_place {reference : Option NodeId} {l : List NodeId} :
    m ∈ place reference n l ↔ m = n ∨ m ∈ l := by
  cases reference with
  | none => simp [place, or_comm]
  | some r => exact mem_placeBefore

/-- In front of the first node of the second part is between the two parts. -/
theorem place_head? {l₁ l₂ : List NodeId} (h : (l₁ ++ l₂).Nodup) :
    place l₂.head? n (l₁ ++ l₂) = l₁ ++ n :: l₂ := by
  cases l₂ with
  | nil => simp [place]
  | cons r rest =>
    show placeBefore r n (l₁ ++ r :: rest) = l₁ ++ n :: r :: rest
    induction l₁ with
    | nil => rw [List.nil_append, placeBefore, if_pos rfl, List.nil_append]
    | cons x l₁ ih =>
      rw [List.cons_append, List.nodup_cons] at h
      have hx : x ≠ r := fun he => h.1 (by simp [he])
      rw [List.cons_append, placeBefore, if_neg hx, ih h.2, List.cons_append]

theorem nodup_place {reference : Option NodeId} {l : List NodeId} (hl : l.Nodup) (hn : n ∉ l) :
    (place reference n l).Nodup := by
  cases reference with
  | none =>
    rw [place, List.nodup_append]
    refine ⟨hl, List.nodup_singleton n, ?_⟩
    intro a ha b hb
    rw [List.mem_singleton.1 hb]
    exact fun he => hn (he ▸ ha)
  | some r =>
    show (placeBefore r n l).Nodup
    induction l with
    | nil => exact List.nodup_singleton n
    | cons x rest ih =>
      rw [placeBefore]
      rw [List.nodup_cons] at hl
      rw [List.mem_cons, not_or] at hn
      split
      · exact List.nodup_cons.2 ⟨by simp [hn], List.nodup_cons.2 hl⟩
      · refine List.nodup_cons.2 ⟨?_, ih hl.2 hn.2⟩
        rw [mem_placeBefore, not_or]
        exact ⟨fun he => hn.1 he.symm, hl.1⟩

theorem parent?_attach (h : d.Adoptable p n) (reference : Option NodeId) (m : NodeId) :
    (d.attach p n reference).parent? m = if m = n then some p else d.parent? m := by
  have hhas := (h.detach n).has_child
  have hd := parent?_detach d n m
  by_cases hm : m = n
  · subst hm
    rw [if_pos rfl, attach, parent?, node_update_self _ _ _ (by rwa [size_nodes_update])]
  · rw [if_neg hm] at hd
    rw [if_neg hm, attach, parent?, node_update_of_ne _ _ hm, ← hd, node_update]
    split <;> rfl

theorem children_attach (hf : d.Forest) (h : d.Adoptable p n) (reference : Option NodeId)
    (q : NodeId) :
    (d.attach p n reference).children q =
      if q = p then place reference n ((d.children p).filter (· != n))
      else (d.children q).filter (· != n) := by
  have hhas := (h.detach n).has_parent
  have hd := children_detach hf n q
  have hlink : (d.attach p n reference).children q = (((d.detach n).update p
      fun r => { r with children := place reference n r.children }).node q).children := by
    rw [attach, children, node_update]
    split <;> rfl
  rw [hlink, node_update]
  by_cases hq : q = p
  · subst hq
    rw [if_pos ⟨rfl, hhas⟩, if_pos rfl, ← hd]
    rfl
  · rw [if_neg fun he => hq he.1, if_neg hq]
    exact hd

/-- What comes to be above a node is above it already, or above `p` with the node inside `n`. -/
theorem above_attach (h : d.Adoptable p n) {reference : Option NodeId} {m a : NodeId}
    (ha : Above (d.attach p n reference) m a) : Above d m a ∨ Above d m n ∧ Above d p a := by
  induction ha with
  | self => exact .inl .self
  | @up x y _ hp ih =>
    rw [parent?_attach h] at hp
    split at hp
    · rename_i hx
      cases hp
      subst hx
      exact .inr ⟨ih.elim id (·.1), .self⟩
    · exact ih.imp (·.up hp) (And.imp_right (·.up hp))

theorem Forest.attach (hf : d.Forest) (h : d.Adoptable p n) (reference : Option NodeId) :
    (d.attach p n reference).Forest where
  parent_of_mem {q m} hm := by
    rw [children_attach hf h] at hm
    rw [parent?_attach h]
    split at hm
    · rename_i hq
      rw [mem_place, List.mem_filter] at hm
      by_cases hmn : m = n
      · rw [if_pos hmn, hq]
      · rw [if_neg hmn, hq]
        exact hf.parent_of_mem (hm.resolve_left hmn).1
    · rw [List.mem_filter] at hm
      rw [if_neg (by simpa using hm.2)]
      exact hf.parent_of_mem hm.1
  mem_of_parent {q m} hp := by
    rw [parent?_attach h] at hp
    rw [children_attach hf h]
    split at hp
    · rename_i hm
      rw [if_pos (Option.some.inj hp).symm, mem_place]
      exact .inl hm
    · rename_i hm
      have hmem := hf.mem_of_parent hp
      split
      · rename_i hq
        rw [mem_place, List.mem_filter]
        exact .inr ⟨hq ▸ hmem, by simpa using hm⟩
      · rw [List.mem_filter]
        exact ⟨hmem, by simpa using hm⟩
  nodup q := by
    rw [children_attach hf h]
    split
    · exact nodup_place ((hf.nodup p).filter _) (by simp)
    · exact (hf.nodup q).filter _
  inner {q m} hp := by
    rw [(relinked_attach d p n reference).leaf?]
    rw [parent?_attach h] at hp
    split at hp
    · rw [← Option.some.inj hp]
      exact h.inner
    · exact hf.inner hp
  solid {q m} hp := by
    rw [(relinked_attach d p n reference).isFragment]
    rw [parent?_attach h] at hp
    split at hp
    · rename_i hm
      rw [hm]
      exact h.solid
    · exact hf.solid hp
  acyclic {q m} hp ha := by
    rw [parent?_attach h] at hp
    split at hp
    · rename_i hm
      cases hp
      subst hm
      exact h.outside ((above_attach h ha).elim id (·.2))
    · rcases above_attach h ha with ha | ⟨hq, ha⟩
      · exact hf.acyclic hp ha
      · -- the way up from `q` leads into `n`, out at `p` and up to `q` again
        exact h.outside ((ha.up hp).trans hq)

end Document

end LiveMarkup
