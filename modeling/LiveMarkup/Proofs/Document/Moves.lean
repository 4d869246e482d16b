import LiveMarkup.Proofs.Document.Forest
/-!
# What the operations that move nodes do to the children

Putting nodes into a node, one or several one after another, as a fragment or not, comes to the same
thing: the nodes stand between what was in front of the reference and the rest, and nowhere else.
`Inserted` states that outcome, and each operation is brought to it. Taking away and replacing are
brought to `Document.detach`.
-/

namespace LiveMarkup.Document

variable {d d' d'' : Document} {p n c f q r : NodeId} {nodes front behind : List NodeId}

/-- Counts some changes at once. -/
def counted (d : Document) (k : Nat) : Document :=
  { d with mutations := d.mutations + k }

@[simp] theorem node_counted (k : Nat) : (d.counted k).node n = d.node n := rfl

@[simp] theorem children_counted (k : Nat) : (d.counted k).children n = d.children n := rfl

@[simp] theorem parent?_counted (k : Nat) : (d.counted k).parent? n = d.parent? n := rfl

@[simp] theorem children_count : d.count.children n = d.children n := rfl

@[simp] theorem parent?_count : d.count.parent? n = d.parent? n := rfl

theorem count_eq_counted (d : Document) : d.count = d.counted 1 := rfl

theorem relinked_counted (d : Document) (k : Nat) : Relinked d (d.counted k) :=
  ⟨rfl, fun _ => rfl, rfl, rfl, rfl⟩

theorem above_counted {k : Nat} {a : NodeId} : Above (d.counted k) n a ↔ Above d n a := by
  constructor
  · intro h
    refine Above.congr (fun _ _ => ?_) h
    rfl
  · intro h
    refine Above.congr (fun _ _ => ?_) h
    rfl

theorem Forest.counted (hf : d.Forest) (k : Nat) : (d.counted k).Forest where
  parent_of_mem := hf.parent_of_mem
  mem_of_parent := hf.mem_of_parent
  nodup := hf.nodup
  inner := hf.inner
  solid := hf.solid
  acyclic hp ha := hf.acyclic hp (above_counted.1 ha)

theorem Adoptable.counted (h : d.Adoptable p n) (k : Nat) : (d.counted k).Adoptable p n :=
  ⟨h.has_parent, h.has_child, h.inner, h.solid, fun ha => h.outside (above_counted.1 ha)⟩

theorem detach_counted (d : Document) (n : NodeId) (k : Nat) :
    (d.counted k).detach n = (d.detach n).counted k := by
  unfold detach
  rw [parent?_counted]
  split <;> rfl

@[simp] theorem mutations_detach : (d.detach n).mutations = d.mutations := by
  unfold detach
  split <;> rfl

@[simp] theorem notices_detach : (d.detach n).notices = d.notices := by
  unfold detach
  split <;> rfl

@[simp] theorem mutations_attach (reference : Option NodeId) :
    (d.attach p n reference).mutations = d.mutations := by
  show (d.detach n).mutations = d.mutations
  exact mutations_detach

@[simp] theorem notices_attach (reference : Option NodeId) :
    (d.attach p n reference).notices = d.notices := by
  show (d.detach n).notices = d.notices
  exact notices_detach

/-! ### Lists without some nodes -/

theorem filter_notMem_cons (n : NodeId) (nodes l : List NodeId) :
    l.filter (· ∉ n :: nodes) = (l.filter (· != n)).filter (· ∉ nodes) := by
  rw [List.filter_filter]
  refine List.filter_congr fun m _ => ?_
  by_cases hm : m = n <;> simp [hm]

theorem filter_notMem_nil (l : List NodeId) : l.filter (· ∉ ([] : List NodeId)) = l := by
  simp

theorem filter_notMem_of_disjoint {l : List NodeId} (h : ∀ m ∈ nodes, m ∉ l) :
    l.filter (· ∉ nodes) = l := by
  rw [List.filter_eq_self]
  intro m hm
  simpa using fun hn => h m hn hm

/-- Lists that are equal without some nodes are equal without more of them. -/
theorem filter_notMem_of_subset {nodes' l l' : List NodeId} (hsub : nodes ⊆ nodes')
    (h : l'.filter (· ∉ nodes) = l.filter (· ∉ nodes)) :
    l'.filter (· ∉ nodes') = l.filter (· ∉ nodes') := by
  have hfilter : ∀ l : List NodeId,
      l.filter (· ∉ nodes') = (l.filter (· ∉ nodes)).filter (· ∉ nodes') := by
    intro l
    rw [List.filter_filter]
    refine List.filter_congr fun m _ => ?_
    by_cases hm : m ∈ nodes
    · simp [hm, hsub hm]
    · simp [hm]
  rw [hfilter, h, ← hfilter]

theorem filter_ne_of_notMem {l : List NodeId} (h : n ∉ l) : l.filter (· != n) = l := by
  rw [List.filter_eq_self]
  intro m hm
  have hne : m ≠ n := fun he => h (he ▸ hm)
  simpa using hne

theorem filter_ne_append_cons {l₁ l₂ : List NodeId} (h : (l₁ ++ n :: l₂).Nodup) :
    (l₁ ++ n :: l₂).filter (· != n) = l₁ ++ l₂ := by
  have h₁ : n ∉ l₁ := fun hn => (List.disjoint_of_nodup_append h) hn (List.mem_cons_self ..)
  have h₂ : n ∉ l₂ := (List.nodup_cons.1 (List.nodup_append.1 h).2.1).1
  rw [List.filter_append, filter_ne_of_notMem h₁, List.filter_cons_of_neg (by simp),
    filter_ne_of_notMem h₂]

/-! ### Finding the next sibling -/

theorem successor?_append_cons {l₁ l₂ : List NodeId} (h : n ∉ l₁) :
    successor? n (l₁ ++ n :: l₂) = l₂.head? := by
  induction l₁ with
  | nil => rw [List.nil_append, successor?, if_pos rfl]
  | cons m l₁ ih =>
    rw [List.mem_cons, not_or] at h
    rw [List.cons_append, successor?, if_neg fun he => h.1 he.symm, ih h.2]

theorem nextSibling?_eq (hf : d.Forest) (h : d.children p = front ++ n :: behind) :
    d.nextSibling? n = behind.head? := by
  have hp : d.parent? n = some p := hf.parent_of_mem (by simp [h])
  have hn : n ∉ front := by
    have hnd := hf.nodup p
    rw [h] at hnd
    exact fun hm => List.disjoint_of_nodup_append hnd hm (List.mem_cons_self ..)
  show (d.parent? n >>= fun p => successor? n (d.children p)) = behind.head?
  rw [hp]
  show successor? n (d.children p) = behind.head?
  rw [h, successor?_append_cons hn]

/-! ### Inserting nodes -/

/-- The document with some nodes put into `p`, between `front` and `behind`. -/
structure Inserted (d d' : Document) (p : NodeId) (nodes front behind : List NodeId) : Prop where
  forest : d'.Forest
  relinked : Relinked d d'
  children_self : d'.children p = front.filter (· ∉ nodes) ++ nodes ++ behind.filter (· ∉ nodes)
  children_of_ne : ∀ q, q ≠ p → d'.children q = (d.children q).filter (· ∉ nodes)
  parent? : ∀ m, d'.parent? m = if m ∈ nodes then some p else d.parent? m
  notices : d'.notices = d.notices

theorem Inserted.of_counted {k : Nat} (h : Inserted (d.counted k) d' p nodes front behind) :
    Inserted d d' p nodes front behind :=
  ⟨h.forest, (relinked_counted d k).trans h.relinked, h.children_self, h.children_of_ne,
    h.parent?, h.notices⟩

/-- The nodes can be put into `p`, between `front` and `behind`. -/
structure Insertable (d : Document) (p : NodeId) (nodes front behind : List NodeId) : Prop where
  forest : d.Forest
  children : d.children p = front ++ behind
  adoptable : ∀ n ∈ nodes, d.Adoptable p n
  nodup : nodes.Nodup

theorem Insertable.counted (h : Insertable d p nodes front behind) (k : Nat) :
    Insertable (d.counted k) p nodes front behind :=
  ⟨h.forest.counted k, h.children, fun n hn => (h.adoptable n hn).counted k, h.nodup⟩

/-- One node is inserted in front of the first node behind that is not the node itself. -/
theorem insertNode_eq_attach (h : Insertable d p [n] front behind) :
    d.insertNode p n behind.head? = d.attach p n (behind.filter (· != n)).head? := by
  have ha := h.adoptable n (List.mem_singleton_self n)
  have hnd := h.forest.nodup p
  rw [h.children] at hnd
  rw [insertNode, ha.inner, ha.contains_eq_false]
  have hparent : ∀ r, behind.head? = some r ∨ r ∈ behind → d.parent? r = some p := by
    intro r hr
    refine h.forest.parent_of_mem ?_
    rw [h.children]
    exact List.mem_append_right _ (hr.elim List.mem_of_mem_head? id)
  dsimp only
  rw [if_neg Bool.false_ne_true]
  cases behind with
  | nil => rfl
  | cons r rest =>
    by_cases hr : r = n
    · subst hr
      have hnext : d.nextSibling? r = rest.head? := nextSibling?_eq h.forest h.children
      have hrest : r ∉ rest := (List.nodup_cons.1 (List.nodup_append.1 hnd).2.1).1
      rw [List.head?_cons, if_pos rfl, hnext, List.filter_cons_of_neg (by simp),
        filter_ne_of_notMem hrest]
      cases rest with
      | nil => rfl
      | cons s rest =>
        show (if d.parent? s = some p then _ else _) = _
        rw [if_pos (hparent s (.inr (by simp)))]
        rfl
    · rw [List.head?_cons, if_neg fun he => hr (Option.some.inj he),
        List.filter_cons_of_pos (by simpa using hr), List.head?_cons]
      show (if d.parent? r = some p then _ else _) = _
      rw [if_pos (hparent r (.inl rfl))]

theorem inserted_insertNode (h : Insertable d p [n] front behind) :
    Inserted d (d.insertNode p n behind.head?) p [n] front behind := by
  have ha := h.adoptable n (List.mem_singleton_self n)
  have hfilter : ∀ l : List NodeId, l.filter (· ∉ [n]) = l.filter (· != n) := by
    intro l
    rw [filter_notMem_cons, filter_notMem_nil]
  rw [insertNode_eq_attach h]
  refine ⟨h.forest.attach ha _, relinked_attach d p n _, ?_, ?_, ?_, notices_attach _⟩
  · have hnd : (front.filter (· != n) ++ behind.filter (· != n)).Nodup := by
      rw [← List.filter_append, ← h.children]
      exact (h.forest.nodup p).filter _
    rw [children_attach h.forest ha, if_pos rfl, h.children, List.filter_append, place_head? hnd,
      hfilter, hfilter, List.append_assoc, List.singleton_append]
  · intro q hq
    rw [children_attach h.forest ha, if_neg hq, hfilter]
  · intro m
    rw [parent?_attach ha]
    simp only [List.mem_singleton]

theorem Inserted.adoptable (h : Inserted d d' p nodes front behind)
    (hn : ∀ n ∈ nodes, ¬ d.Above p n) (ha : d.Adoptable p n) : d'.Adoptable p n where
  has_parent := h.relinked.has.2 ha.has_parent
  has_child := h.relinked.has.2 ha.has_child
  inner := by rw [h.relinked.leaf?, ha.inner]
  solid := by rw [h.relinked.isFragment, ha.solid]
  outside habove := by
    refine ha.outside (Above.congr (fun a hpa => ?_) habove)
    rw [h.parent?, if_neg]
    exact fun hm => hn a hm hpa

/-- Several nodes put into `p` one after another, by a step that puts each in front of the same node,
which is none of them. -/
theorem inserted_foldl {step : Document → NodeId → Document} {reference : Option NodeId}
    (hstep : ∀ {d n front behind}, Insertable d p [n] front behind → behind.head? = reference →
      Inserted d (step d n) p [n] front behind)
    (h : Insertable d p nodes front behind) (href : behind.head? = reference)
    (hne : ∀ n ∈ nodes, reference ≠ some n) :
    Inserted d (nodes.foldl step d) p nodes front behind := by
  induction nodes generalizing d front behind with
  | nil =>
    refine ⟨h.forest, .refl d, ?_, ?_, ?_, rfl⟩
    · rw [filter_notMem_nil, filter_notMem_nil, List.append_nil]
      exact h.children
    · intro q _
      rw [filter_notMem_nil]
      rfl
    · intro m
      rw [if_neg (List.not_mem_nil)]
      rfl
  | cons n rest ih =>
    have hnd := List.nodup_cons.1 h.nodup
    have hadopt := h.adoptable n (List.mem_cons_self ..)
    have hone : Insertable d p [n] front behind :=
      ⟨h.forest, h.children, by simpa using hadopt, List.nodup_singleton n⟩
    have hins := hstep hone href
    have hfilter : ∀ l : List NodeId, l.filter (· ∉ [n]) = l.filter (· != n) := by
      intro l
      rw [filter_notMem_cons, filter_notMem_nil]
    have hhead : (behind.filter (· ∉ [n])).head? = reference := by
      cases behind with
      | nil => exact href
      | cons r rest' =>
        have hr : r ≠ n := fun he => hne n (List.mem_cons_self ..) (by rw [← href, he]; rfl)
        rw [hfilter, List.filter_cons_of_pos (by simpa using hr)]
        exact href
    have hnext : Insertable (step d n) p rest (front.filter (· ∉ [n]) ++ [n])
        (behind.filter (· ∉ [n])) := by
      refine ⟨hins.forest, hins.children_self, fun m hm => ?_, hnd.2⟩
      refine hins.adoptable ?_ (h.adoptable m (List.mem_cons_of_mem _ hm))
      simpa using hadopt.outside
    have hrest := ih hnext hhead fun m hm => hne m (List.mem_cons_of_mem _ hm)
    rw [List.foldl_cons]
    refine ⟨hrest.forest, hins.relinked.trans hrest.relinked, ?_, ?_, ?_, ?_⟩
    · rw [hrest.children_self, List.filter_append, List.filter_cons_of_pos (by simpa using hnd.1),
        List.filter_nil, hfilter, hfilter, ← filter_notMem_cons, ← filter_notMem_cons]
      simp
    · intro q hq
      rw [hrest.children_of_ne q hq, hins.children_of_ne q hq, hfilter, ← filter_notMem_cons]
    · intro m
      rw [hrest.parent?, hins.parent?]
      by_cases hm : m ∈ rest
      · rw [if_pos hm, if_pos (List.mem_cons_of_mem _ hm)]
      · simp [hm]
    · rw [hrest.notices, hins.notices]

theorem inserted_insertEach (h : Insertable d p nodes front behind)
    (hne : ∀ n ∈ nodes, behind.head? ≠ some n) :
    Inserted d (d.insertEach p nodes behind.head?) p nodes front behind := by
  refine inserted_foldl (fun h' href => ?_) h rfl hne
  rw [← href]
  exact inserted_insertNode h'

/-- What inserting a node comes to. -/
theorem inserted_insertBefore (h : Insertable d p [n] front behind) :
    Inserted d (d.insertBefore p n behind.head?) p [n] front behind := by
  have hsolid : d.count.isFragment n = false := (h.adoptable n (List.mem_singleton_self n)).solid
  rw [insertBefore, hsolid, if_neg Bool.false_ne_true, count_eq_counted]
  exact (inserted_insertNode (h.counted 1)).of_counted

/-- What inserting a fragment comes to: it stands for its children. -/
theorem inserted_insertBefore_fragment (h : Insertable d p (d.children f) front behind)
    (hf : d.isFragment f = true) (hne : ∀ n ∈ d.children f, behind.head? ≠ some n) :
    Inserted d (d.insertBefore p f behind.head?) p (d.children f) front behind := by
  have hcount : d.count.isFragment f = true := hf
  rw [insertBefore, if_pos hcount, count_eq_counted]
  exact (inserted_insertEach (h.counted 1) hne).of_counted

/-- Several nodes inserted by themselves. -/
theorem inserted_foldl_insertBefore (h : Insertable d p nodes front behind)
    (hne : ∀ n ∈ nodes, behind.head? ≠ some n) :
    Inserted d (nodes.foldl (fun d n => d.insertBefore p n behind.head?) d) p nodes front
      behind := by
  refine inserted_foldl (fun h' href => ?_) h rfl hne
  rw [← href]
  exact inserted_insertBefore h'

/-! ### What is left alone -/

/-- The documents differ only in where some nodes are. -/
structure Moved (d d' : Document) (nodes : List NodeId) : Prop where
  forest : d'.Forest
  relinked : Relinked d d'
  children : ∀ q, (d'.children q).filter (· ∉ nodes) = (d.children q).filter (· ∉ nodes)
  notices : d'.notices = d.notices

namespace Moved

theorem mem_children_iff (h : Moved d d' nodes) (hn : n ∉ nodes) :
    n ∈ d'.children q ↔ n ∈ d.children q := by
  have hmem : ∀ l : List NodeId, n ∈ l ↔ n ∈ l.filter (· ∉ nodes) := by
    intro l
    rw [List.mem_filter]
    simp [hn]
  rw [hmem, h.children, ← hmem]

theorem parent? (hf : d.Forest) (h : Moved d d' nodes) (hn : n ∉ nodes) :
    d'.parent? n = d.parent? n := by
  refine Option.ext fun q => ?_
  rw [← h.forest.mem_children_iff, ← hf.mem_children_iff]
  exact h.mem_children_iff hn

theorem trans (h : Moved d d' nodes) (h' : Moved d' d'' nodes) : Moved d d'' nodes where
  forest := h'.forest
  relinked := h.relinked.trans h'.relinked
  children q := (h'.children q).trans (h.children q)
  notices := h'.notices.trans h.notices

theorem mono {nodes' : List NodeId} (h : Moved d d' nodes) (hsub : ∀ n ∈ nodes, n ∈ nodes') :
    Moved d d' nodes' where
  forest := h.forest
  relinked := h.relinked
  children q := filter_notMem_of_subset hsub (h.children q)
  notices := h.notices

theorem refl (hf : d.Forest) (nodes : List NodeId) : Moved d d nodes :=
  ⟨hf, .refl d, fun _ => rfl, rfl⟩

/-- A list of children that neither had nor gets any of the nodes stays what it is. -/
theorem children_eq (h : Moved d d' nodes) (hq : ∀ n ∈ nodes, n ∉ d.children q)
    (hq' : ∀ n ∈ nodes, n ∉ d'.children q) : d'.children q = d.children q := by
  rw [← filter_notMem_of_disjoint hq', h.children, filter_notMem_of_disjoint hq]

end Moved

theorem Inserted.moved (h : Inserted d d' p nodes front behind)
    (hp : d.children p = front ++ behind) : Moved d d' nodes where
  forest := h.forest
  relinked := h.relinked
  children q := by
    have hnone : nodes.filter (· ∉ nodes) = [] := by
      rw [List.filter_eq_nil_iff]
      intro n hn
      simpa using hn
    by_cases hq : q = p
    · rw [hq, h.children_self, hp]
      simp only [List.filter_append, List.filter_filter, Bool.and_self, hnone, List.append_nil]
    · rw [h.children_of_ne q hq, List.filter_filter]
      simp only [Bool.and_self]
  notices := h.notices

theorem moved_detach (hf : d.Forest) (n : NodeId) : Moved d (d.detach n) [n] where
  forest := hf.detach n
  relinked := relinked_detach d n
  children q := by
    have htwice : ∀ l : List NodeId, (l.filter (· != n)).filter (· != n) = l.filter (· != n) := by
      intro l
      rw [List.filter_filter]
      simp only [Bool.and_self]
    rw [children_detach hf, filter_notMem_cons, filter_notMem_cons, htwice]
  notices := notices_detach

/-! ### Removing and replacing nodes -/

theorem removeChild_eq (h : d.parent? c = some p) : d.removeChild p c = (d.detach c).counted 1 := by
  rw [removeChild, if_pos h, count_eq_counted, detach_counted]

theorem ext_nodes {d d' : Document} (hsize : d'.nodes.size = d.nodes.size)
    (hnode : ∀ n, d'.node n = d.node n) (hattributes : d'.attributes = d.attributes)
    (hgroups : d'.groups = d.groups) (hcells : d'.cells = d.cells)
    (hmutations : d'.mutations = d.mutations) (hnotices : d'.notices = d.notices) : d' = d := by
  have hnodes : d'.nodes = d.nodes := by
    refine Array.ext hsize fun i hi hi' => ?_
    have h := hnode ⟨i⟩
    simpa [node, Array.getD, hi, hi'] using h
  cases d'
  cases d
  simp_all

theorem substitute_eq {l : List NodeId} (hl : l.Nodup) (hn : n ∉ l) (hc : c ∈ l) :
    substitute c n l = (placeBefore c n l).filter (· != c) := by
  induction l with
  | nil => cases hc
  | cons m rest ih =>
    rw [List.nodup_cons] at hl
    rw [List.mem_cons, not_or] at hn
    by_cases hm : m = c
    · subst hm
      have hrest : ∀ x ∈ rest, x ≠ m := fun x hx he => hl.1 (he ▸ hx)
      rw [placeBefore, if_pos rfl, List.filter_cons_of_pos (by simpa using hn.1),
        List.filter_cons_of_neg (by simp), filter_ne_of_notMem hl.1, substitute, List.map_cons,
        if_pos rfl]
      congr 1
      conv_rhs => rw [← List.map_id rest]
      exact List.map_congr_left fun x hx => if_neg (hrest x hx)
    · have hmem : c ∈ rest := (List.mem_cons.1 hc).resolve_left fun he => hm he.symm
      rw [placeBefore, if_neg hm, List.filter_cons_of_pos (by simpa using hm),
        ← ih hl.2 hn.2 hmem, substitute, List.map_cons, if_neg hm]
      rfl

theorem detach_eq_of_parent (h : d.parent? n = some p) :
    d.detach n = (d.update p fun r => { r with children := r.children.filter (· != n) }).update n
      fun r => { r with parent := none } := by
  unfold detach
  rw [h]

/-- Putting a node in the place of a child is putting it in front of the child, which is then taken
away. -/
theorem detach_attach_eq (hf : d.Forest) (ha : d.Adoptable p n) (hc : d.parent? c = some p)
    (hne : n ≠ c) :
    (d.attach p n (some c)).detach c =
      (((d.detach n).update p fun r => { r with children := substitute c n r.children }).update n
        fun r => { r with parent := some p }).update c fun r => { r with parent := none } := by
  have hparent : (d.attach p n (some c)).parent? c = some p := by
    rw [parent?_attach ha, if_neg hne.symm]
    exact hc
  have hmem : c ∈ (d.detach n).children p := by
    rw [children_detach hf, List.mem_filter]
    exact ⟨hf.mem_of_parent hc, by simpa using hne.symm⟩
  have hnot : n ∉ (d.detach n).children p := by
    rw [children_detach hf, List.mem_filter]
    simp
  have hsub := substitute_eq ((hf.detach n).nodup p) hnot hmem
  rw [detach_eq_of_parent hparent]
  refine congrArg (fun d : Document => d.update c fun r => { r with parent := none }) ?_
  refine ext_nodes (by simp [attach]) (fun m => ?_) rfl rfl rfl rfl rfl
  have hp : (d.detach n).Has p := (ha.detach n).has_parent
  simp only [attach, node_update, has_update]
  by_cases hm : m = p
  · subst hm
    have hmn : m ≠ n := ha.ne.symm
    simp only [hmn, hp, false_and, and_self, if_true, if_false]
    show Node.mk _ _ _ ((placeBefore c n ((d.detach n).children m)).filter _) _ _ _ =
      Node.mk _ _ _ (substitute c n ((d.detach n).children m)) _ _ _
    rw [hsub]
  · simp only [hm, false_and, if_false]

/-- Replacing a child is inserting in front of it and taking it away. -/
theorem replaceChild_eq (hf : d.Forest) (hc : d.parent? c = some p) (hne : n ≠ c)
    (hn : d.isFragment n = false → d.Adoptable p n) :
    d.replaceChild p n c = (d.insertBefore p n (some c)).detach c := by
  have hreplace : d.replaceChild p n c =
      if d.isFragment n then (d.count.insertEach p (d.children n) (some c)).detach c
      else if d.count.contains n p then d.count.note (.replacementCycle (d.count.sketch n))
      else (((d.count.detach n).update p fun r =>
        { r with children := substitute c n r.children }).update n
          fun r => { r with parent := some p }).update c fun r => { r with parent := none } := by
    rw [replaceChild, if_pos hc, if_neg hne]
    rfl
  have hinsert : d.insertBefore p n (some c) =
      if d.isFragment n then d.count.insertEach p (d.children n) (some c)
      else d.count.insertNode p n (some c) := rfl
  rw [hreplace, hinsert, count_eq_counted]
  cases hsolid : d.isFragment n with
  | true => rfl
  | false =>
    have ha := (hn hsolid).counted 1
    have hnode : (d.counted 1).insertNode p n (some c) = (d.counted 1).attach p n (some c) := by
      rw [insertNode, ha.inner, ha.contains_eq_false]
      dsimp only
      rw [if_neg Bool.false_ne_true, if_neg fun he => hne (Option.some.inj he).symm]
      exact if_pos hc
    rw [if_neg Bool.false_ne_true, if_neg Bool.false_ne_true, ha.contains_eq_false,
      if_neg Bool.false_ne_true, hnode, detach_attach_eq (hf.counted 1) ha hc hne]

end LiveMarkup.Document
