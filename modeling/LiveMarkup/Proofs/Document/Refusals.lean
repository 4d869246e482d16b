import LiveMarkup.Proofs.Document.Arrangement
import LiveMarkup.Proofs.Document.Ownership
/-!
# What is left of a call that fails

A call that moves one node, or puts an attribute on an element or takes one off, is refused before anything has
been done: nothing but the notice is new. A fragment is put somewhere child by child, and each of the children is
accepted or refused by itself, so that a call with a fragment can fail when part of the work has been done. This
is so in three cases (`Document.HalfDone`). One of the children contains the node that they are put into, and goes
nowhere while the others go there; a child is to be replaced by such a fragment, and is taken away whatever becomes
of the others; the reference is itself the last child of the fragment, and is put at the end as there is nothing
behind it, after those in front of it have been refused. In all other cases a call that fails leaves all links as
they are (`Document.failed_unchanged_iff`).
-/

namespace LiveMarkup.Document

variable {d d' d'' : Document} {p n m b c f r : NodeId} {nodes row row' gone front behind : List NodeId}
  {reference : Option NodeId}

/-! ### Notices only -/

/-- Only the notices, and how many changes have been counted, may be others. -/
structure Noted (d d' : Document) : Prop where
  nodes : d'.nodes = d.nodes
  attributes : d'.attributes = d.attributes

namespace Noted

theorem refl (d : Document) : d.Noted d :=
  ⟨rfl, rfl⟩

theorem trans (h : d.Noted d') (h' : d'.Noted d'') : d.Noted d'' :=
  ⟨h'.nodes.trans h.nodes, h'.attributes.trans h.attributes⟩

theorem note (d : Document) (notice : Notice) : d.Noted (d.note notice) :=
  ⟨rfl, rfl⟩

theorem count (d : Document) : d.Noted d.count :=
  ⟨rfl, rfl⟩

theorem node (h : d.Noted d') (n : NodeId) : d'.node n = d.node n := by
  rw [Document.node, h.nodes, Document.node]

theorem children (h : d.Noted d') (n : NodeId) : d'.children n = d.children n := by
  rw [Document.children, h.node, Document.children]

theorem parent? (h : d.Noted d') (n : NodeId) : d'.parent? n = d.parent? n := by
  rw [Document.parent?, h.node, Document.parent?]

theorem leaf? (h : d.Noted d') (n : NodeId) : d'.leaf? n = d.leaf? n := by
  unfold Document.leaf? Document.kind
  rw [h.node]

theorem climb (h : d.Noted d') (fuel : Nat) (n : NodeId) : d'.climb fuel n = d.climb fuel n := by
  induction fuel generalizing n with
  | zero => rfl
  | succ fuel ih =>
    rw [Document.climb, Document.climb, h.parent?]
    cases d.parent? n with
    | none => rfl
    | some p =>
      dsimp only
      rw [ih]

theorem contains (h : d.Noted d') (n m : NodeId) : d'.contains n m = d.contains n m := by
  unfold Document.contains lineage
  rw [h.nodes, h.climb]

theorem nextSibling? (h : d.Noted d') (n : NodeId) : d'.nextSibling? n = d.nextSibling? n := by
  unfold Document.nextSibling?
  simp only [h.parent?, h.children]

end Noted

/-- All lists of children, parents, lists of attributes and owners of attributes are the same. -/
structure SameLinks (d d' : Document) : Prop where
  children : ∀ n, d'.children n = d.children n
  parent? : ∀ n, d'.parent? n = d.parent? n
  attributes : ∀ n, (d'.node n).attributes = (d.node n).attributes
  owner : ∀ a, (d'.attr a).owner = (d.attr a).owner

theorem Noted.sameLinks (h : d.Noted d') : d.SameLinks d' where
  children := h.children
  parent? := h.parent?
  attributes n := by rw [h.node]
  owner a := by rw [attr, h.attributes, attr]

/-! ### One node that is refused -/

/-- The child that a node is to be put in front of. -/
def target (d : Document) (n : NodeId) (reference : Option NodeId) : Option NodeId :=
  if reference = some n then d.nextSibling? n else reference

/-- A last child that is its own reference is put at the end. -/
theorem target_last (hf : d.Forest) (h : d.children f = front ++ [r]) :
    d.target r (some r) = d.target r none := by
  rw [target, target, if_pos rfl, nextSibling?_eq hf h]
  rfl

/-- A node is not put into `p`: `p` has no children, it is inside the node, or it has no such child. -/
def Refuses (d : Document) (p n : NodeId) (reference : Option NodeId) : Prop :=
  d.leaf? p ≠ none ∨ d.contains n p = true ∨ ∃ r, d.target n reference = some r ∧ d.parent? r ≠ some p

theorem Noted.refuses (h : d.Noted d') (hr : d.Refuses p n reference) : d'.Refuses p n reference := by
  unfold Refuses target at hr ⊢
  simpa only [h.leaf?, h.contains, h.nextSibling?, h.parent?] using hr

theorem insertNode_refused (h : d.Refuses p n reference) :
    ∃ notice, d.insertNode p n reference = d.note notice := by
  unfold insertNode
  cases hleaf : d.leaf? p with
  | some leaf => exact ⟨_, rfl⟩
  | none =>
    dsimp only
    by_cases hc : d.contains n p = true
    · rw [if_pos hc]
      exact ⟨_, rfl⟩
    · rw [if_neg hc]
      obtain h | h | ⟨r, htarget, hr⟩ := h
      · exact absurd hleaf h
      · exact absurd h hc
      · rw [target] at htarget
        rw [htarget]
        dsimp only
        rw [if_neg hr]
        exact ⟨_, rfl⟩

theorem insertNode_congr {reference' : Option NodeId} (h : d.target n reference = d.target n reference') :
    d.insertNode p n reference = d.insertNode p n reference' := by
  unfold target at h
  unfold insertNode
  rw [h]

/-- If none of some nodes can be put into `p`, all that comes of it is a notice for each. -/
theorem insertEach_refused (h : ∀ n ∈ nodes, d.Refuses p n reference) :
    let d' := d.insertEach p nodes reference
    d.Noted d' ∧ d'.notices.length = d.notices.length + nodes.length := by
  induction nodes generalizing d with
  | nil => exact ⟨.refl d, rfl⟩
  | cons n rest ih =>
    obtain ⟨hn, hrest⟩ := List.forall_mem_cons.1 h
    obtain ⟨notice, hnote⟩ := insertNode_refused hn
    have hone := Noted.note d notice
    obtain ⟨hnoted, hlength⟩ := ih fun m hm => hone.refuses (hrest m hm)
    rw [← hnote] at hnoted hlength
    refine ⟨(hnote ▸ hone).trans hnoted, hlength.trans ?_⟩
    rw [hnote, List.length_cons]
    exact Nat.add_right_comm ..

/-! ### Several nodes, some of which are refused -/

/-- Those of some nodes that can be put into `p`: they do not contain it. -/
def fitting (d : Document) (p : NodeId) (nodes : List NodeId) : List NodeId :=
  nodes.filter fun n => !d.contains n p

theorem Noted.fitting (h : d.Noted d') : d'.fitting p nodes = d.fitting p nodes := by
  unfold Document.fitting
  simp only [h.contains]

theorem mem_fitting : n ∈ d.fitting p nodes ↔ n ∈ nodes ∧ d.contains n p = false := by
  rw [fitting, List.mem_filter, Bool.not_eq_true']

theorem fitting_cons_of_contains (h : d.contains n p = true) : d.fitting p (n :: nodes) = d.fitting p nodes := by
  rw [fitting, List.filter_cons_of_neg (by simp [h]), fitting]

theorem fitting_cons_of_free (h : d.contains n p = false) :
    d.fitting p (n :: nodes) = n :: d.fitting p nodes := by
  rw [fitting, List.filter_cons_of_pos (by simp [h]), fitting]

/-- A node that can be a child, but is none of `p`. -/
structure Elsewhere (d : Document) (p n : NodeId) : Prop where
  has : d.Has n
  solid : d.isFragment n = false
  parent? : d.parent? n ≠ some p

theorem not_above_of_contains (hf : d.Forest) (hp : d.Has p) (h : d.contains n p = false) : ¬ d.Above p n := by
  intro ha
  rw [(contains_iff hf hp).2 ha] at h
  cases h

/-- What is put into `p` does not come to be above it. -/
theorem Inserted.contains (h : Inserted d d' p nodes front behind) (hf : d.Forest) (hp : d.Has p)
    (hfree : ∀ n ∈ nodes, ¬ d.Above p n) : d'.contains m p = d.contains m p := by
  rw [Bool.eq_iff_iff, contains_iff hf hp, contains_iff h.forest (h.relinked.has.2 hp)]
  constructor
  · refine Above.congr fun a ha => ?_
    rw [h.parent?, if_neg fun hn => hfree a hn ha]
  · refine Above.congr fun a ha => ?_
    have hn : a ∉ nodes := fun hn => h.forest.acyclic (by rw [h.parent?, if_pos hn]) ha
    rw [h.parent?, if_neg hn]

theorem Inserted.elsewhere (h : Inserted d d' p nodes front behind) (hm : m ∉ nodes) (he : d.Elsewhere p m) :
    d'.Elsewhere p m where
  has := h.relinked.has.2 he.has
  solid := (h.relinked.isFragment m).trans he.solid
  parent? := by
    rw [h.parent?, if_neg hm]
    exact he.parent?

/-- One node is put into `p` and then some others. -/
theorem Rehomes.cons (h : d.Rehomes d' p [n] row []) (h' : d'.Rehomes d'' p nodes row' []) :
    d.Rehomes d'' p (n :: nodes) row' [] where
  row := h'.row
  left q hq := by
    rw [h'.left q hq, h.left q hq, filter_notMem_cons, filter_notMem_cons n nodes, filter_notMem_nil]
  parent? m := by
    rw [h'.parent?, h.parent?]
    by_cases hn : m = n <;> simp [hn]
  relinked := h.relinked.trans h'.relinked

theorem Rehomes.refl (d : Document) (p : NodeId) : d.Rehomes d p [] (d.children p) [] where
  row := rfl
  left q _ := by rw [filter_notMem_nil]
  parent? m := by rw [if_neg List.not_mem_nil, if_neg List.not_mem_nil]
  relinked := .refl d

/-- A notice that is left before makes no difference. -/
theorem Noted.rehomes (h : d.Noted d') (hrelinked : Relinked d d') (h' : d'.Rehomes d'' p nodes row gone) :
    d.Rehomes d'' p nodes row gone where
  row := h'.row
  left q hq := by rw [h'.left q hq, h.children]
  parent? m := by rw [h'.parent?, h.parent?]
  relinked := hrelinked.trans h'.relinked

theorem Forest.note (hf : d.Forest) (notice : Notice) : (d.note notice).Forest :=
  hf.congr (fun _ => rfl) (fun _ => rfl) fun _ _ => rfl

/-- A node that stands elsewhere and fits is put into `p` in front of a child. -/
theorem insertNode_fitting (hf : d.Forest) (hp : d.Has p) (hinner : d.leaf? p = none) (hn : d.Elsewhere p n)
    (hcontains : d.contains n p = false) (hrow : d.children p = front ++ behind) :
    let d' := d.insertNode p n behind.head?
    Inserted d d' p [n] front behind ∧ d'.children p = front ++ [n] ++ behind ∧
      ∀ nodes, d'.fitting p nodes = d.fitting p nodes := by
  have hfree := not_above_of_contains hf hp hcontains
  have hadoptable : d.Adoptable p n := ⟨hp, hn.has, hinner, hn.solid, hfree⟩
  have hins := inserted_insertNode ⟨hf, hrow, by simpa using hadoptable, List.nodup_singleton n⟩
  have hout : n ∉ front ++ behind := by
    rw [← hrow]
    exact hf.not_mem_children_of_ne hn.parent?
  rw [List.mem_append, not_or] at hout
  refine ⟨hins, ?_, fun _ => List.filter_congr fun m _ => ?_⟩
  · rw [hins.children_self, filter_notMem_of_disjoint (by simpa using hout.1),
      filter_notMem_of_disjoint (by simpa using hout.2)]
  · rw [hins.contains hf hp (by simpa using hfree)]

/-- Nodes that stand elsewhere are put into `p` one after another in front of the same child: those that fit come
to stand there, and a notice is left for each of the others. -/
theorem insertEach_fitting (hf : d.Forest) (hp : d.Has p) (hinner : d.leaf? p = none)
    (hnodes : ∀ n ∈ nodes, d.Elsewhere p n) (hnd : nodes.Nodup) (hrow : d.children p = front ++ behind) :
    let d' := d.insertEach p nodes behind.head?
    let fit := d.fitting p nodes
    d'.Forest ∧ d.Rehomes d' p fit (front ++ fit ++ behind) [] ∧
      d'.notices.length + fit.length = d.notices.length + nodes.length := by
  intro d' fit
  induction nodes generalizing d front with
  | nil =>
    refine ⟨hf, ?_, rfl⟩
    have hsame := Rehomes.refl d p
    rw [hrow] at hsame
    simpa [d', fit, fitting, insertEach] using hsame
  | cons n rest ih =>
    obtain ⟨hn, hrest⟩ := List.forall_mem_cons.1 hnodes
    obtain ⟨hnot, hnd⟩ := List.nodup_cons.1 hnd
    have hstep : d' = (d.insertNode p n behind.head?).insertEach p rest behind.head? := rfl
    rw [List.length_cons, hstep]
    cases hcontains : d.contains n p with
    | true =>
      obtain ⟨notice, hnote⟩ := insertNode_refused (.inr (.inl hcontains) : d.Refuses p n behind.head?)
      have hnoted := Noted.note d notice
      have hrest' : ∀ m ∈ rest, (d.note notice).Elsewhere p m := fun m hm =>
        ⟨(hrest m hm).has, (hrest m hm).solid, (hrest m hm).parent?⟩
      obtain ⟨hforest, hhomes, hlength⟩ := ih (d := d.note notice) (hf.note notice) hp hinner hrest' hnd hrow
      have hfit : fit = d.fitting p rest := fitting_cons_of_contains hcontains
      have hone : (d.note notice).notices.length = d.notices.length + 1 := rfl
      rw [hnoted.fitting, ← hfit] at hhomes hlength
      rw [hnote]
      exact ⟨hforest, hnoted.rehomes (relinked_note d notice) hhomes, by omega⟩
    | false =>
      obtain ⟨hins, hrow', hsame⟩ := insertNode_fitting hf hp hinner hn hcontains hrow
      have hrest' : ∀ m ∈ rest, (d.insertNode p n behind.head?).Elsewhere p m := fun m hm =>
        hins.elsewhere (fun he => hnot (List.mem_singleton.1 he ▸ hm)) (hrest m hm)
      obtain ⟨hforest, hothers, hlength⟩ := ih (d := d.insertNode p n behind.head?) hins.forest
        (hins.relinked.has.2 hp) ((hins.relinked.leaf? p).trans hinner) hrest' hnd hrow'
      have hfit : fit = n :: d.fitting p rest := fitting_cons_of_free hcontains
      rw [hsame] at hothers hlength
      rw [hins.notices] at hlength
      rw [hfit, List.length_cons]
      refine ⟨hforest, ?_, by omega⟩
      simpa using hins.rehomes.cons hothers

/-- If `p` can have all of some nodes and the reference is a child of it, then nothing is refused, even if the
reference is one of the nodes. -/
theorem notices_insertEach (hf : d.Forest) (hnodes : ∀ n ∈ nodes, d.Adoptable p n)
    (hreference : ∀ r, reference = some r → d.parent? r = some p) :
    (d.insertEach p nodes reference).notices = d.notices := by
  induction nodes generalizing d with
  | nil => rfl
  | cons n rest ih =>
    obtain ⟨hn, hrest⟩ := List.forall_mem_cons.1 hnodes
    have htarget : ∃ target, d.insertNode p n reference = d.attach p n target := by
      unfold insertNode
      rw [hn.inner, hn.contains_eq_false]
      dsimp only
      rw [if_neg Bool.false_ne_true]
      by_cases hself : reference = some n
      · rw [if_pos hself]
        obtain ⟨front, behind, hrow⟩ := List.append_of_mem (hf.mem_of_parent (hreference n hself))
        rw [nextSibling?_eq hf hrow]
        cases behind with
        | nil => exact ⟨_, rfl⟩
        | cons s behind => exact ⟨_, if_pos (hf.parent_of_mem (by rw [hrow]; simp))⟩
      · rw [if_neg hself]
        cases reference with
        | none => exact ⟨_, rfl⟩
        | some r => exact ⟨_, if_pos (hreference r rfl)⟩
    obtain ⟨target, hattach⟩ := htarget
    show ((d.insertNode p n reference).insertEach p rest reference).notices = d.notices
    rw [hattach]
    have hreference' : ∀ r, reference = some r → (d.attach p n target).parent? r = some p := by
      intro r hr
      rw [parent?_attach hn, hreference r hr, ite_self]
    have hrest' : ∀ m ∈ rest, (d.attach p n target).Adoptable p m := by
      intro m hm
      have hrelinked := relinked_attach d p n target
      have hm := hrest m hm
      refine ⟨hrelinked.has.2 hm.has_parent, hrelinked.has.2 hm.has_child, (hrelinked.leaf? p).trans hm.inner,
        (hrelinked.isFragment m).trans hm.solid, fun ha => ?_⟩
      exact (above_attach hn ha).elim hm.outside fun h => hn.outside h.1
    exact (ih (hf.attach hn target) hrest' hreference').trans (notices_attach target)

/-! ### Fragments -/

/-- Ways in which a fragment `f` is put into `p` in part only: `nodes` are those of its children that come into
`p`, which has the children `row` then. -/
inductive HalfInserted (d : Document) (p f : NodeId) : Option NodeId → List NodeId → List NodeId → Prop where
  /-- A child of the fragment contains `p`, and others do not. -/
  | around {front behind : List NodeId} {b : NodeId} : d.children p = front ++ behind → b ∈ d.children f →
      d.contains b p = true → d.fitting p (d.children f) ≠ [] →
      HalfInserted d p f behind.head? (d.fitting p (d.children f)) (front ++ d.fitting p (d.children f) ++ behind)
  /-- The reference is the last child of the fragment itself, with nothing behind it when its turn comes. -/
  | astray {front : List NodeId} {r : NodeId} : f ≠ p → d.children f = front ++ [r] → front ≠ [] →
      d.contains r p = false → HalfInserted d p f (some r) [r] (d.children p ++ [r])

theorem insertBefore_of_isFragment (hfragment : d.isFragment f = true) (reference : Option NodeId) :
    d.insertBefore p f reference = d.count.insertEach p (d.children f) reference :=
  if_pos hfragment

/-- A node one of whose children contains `p` is not `p`. -/
theorem ne_of_contains_child (hf : d.Forest) (hp : d.Has p) (hb : b ∈ d.children f)
    (hcontains : d.contains b p = true) : f ≠ p := by
  rintro rfl
  exact hf.acyclic (hf.parent_of_mem hb) ((contains_iff hf hp).1 hcontains)

/-- The children of a fragment that is put somewhere else. -/
theorem elsewhere_of_mem_children (hf : d.Forest) (hne : f ≠ p) (hn : n ∈ d.children f) : d.Elsewhere p n := by
  have hparent := hf.parent_of_mem hn
  refine ⟨has_of_parent? hparent, hf.solid hparent, fun he => ?_⟩
  exact hne (Option.some.inj (hparent.symm.trans he))

/-- A fragment is put into another node in front of a child of that. -/
theorem insertBefore_fitting (hf : d.Forest) (hp : d.Has p) (hinner : d.leaf? p = none)
    (hfragment : d.isFragment f = true) (hne : f ≠ p) (hrow : d.children p = front ++ behind) :
    let d' := d.insertBefore p f behind.head?
    let fit := d.fitting p (d.children f)
    d'.Forest ∧ d.Rehomes d' p fit (front ++ fit ++ behind) [] ∧
      d'.notices.length + fit.length = d.notices.length + (d.children f).length := by
  obtain ⟨hforest, hhomes, hlength⟩ := insertEach_fitting (d := d.count) (hf.counted 1) hp hinner
    (fun n => elsewhere_of_mem_children (hf.counted 1) hne) (hf.nodup f) hrow
  rw [(Noted.count d).fitting] at hhomes hlength
  rw [insertBefore_of_isFragment hfragment]
  exact ⟨hforest, (Noted.count d).rehomes (relinked_counted d 1) hhomes, hlength⟩

theorem length_fitting_lt (hb : b ∈ nodes) (hcontains : d.contains b p = true) :
    (d.fitting p nodes).length < nodes.length := by
  rw [fitting, List.length_filter_lt_length_iff_exists]
  exact ⟨b, hb, by simp [hcontains]⟩

/-- A fragment is put in front of its own last child, which is in it and not in `p`: those in front of that one are
refused, and then it goes to the end. -/
theorem insertBefore_astray (hf : d.Forest) (hp : d.Has p) (hinner : d.leaf? p = none)
    (hfragment : d.isFragment f = true) (hne : f ≠ p) (hchildren : d.children f = front ++ [r])
    (hfree : d.contains r p = false) :
    let d' := d.insertBefore p f (some r)
    d.Rehomes d' p [r] (d.children p ++ [r]) [] ∧ d'.notices.length = d.notices.length + front.length := by
  have hr : r ∈ d.children f := by simp [hchildren]
  have hnd := hf.nodup f
  rw [hchildren, List.nodup_append] at hnd
  have hrefused : ∀ n ∈ front, d.count.Refuses p n (some r) := by
    intro n hn
    have hother : some r ≠ some n := fun he =>
      hnd.2.2 n hn r (List.mem_singleton_self r) (Option.some.inj he).symm
    exact .inr (.inr ⟨r, if_neg hother, (elsewhere_of_mem_children hf hne hr).parent?⟩)
  obtain ⟨hnoted, hcount⟩ := insertEach_refused hrefused
  have hrelinked : Relinked d.count (d.count.insertEach p front (some r)) :=
    (shifts_insertEach (List.mem_singleton_self p) d.count front (some r)).relinked
  have hsplit : d.insertBefore p f (some r) =
      (d.count.insertEach p front (some r)).insertNode p r (some r) := by
    rw [insertBefore_of_isFragment hfragment, hchildren, insertEach, List.foldl_append]
    rfl
  have hall := (Noted.count d).trans hnoted
  -- what is left of those in front are notices, so that the last one is put into a document like `d`
  generalize d.count.insertEach p front (some r) = refused at *
  have hforest : refused.Forest := hf.congr hall.children hall.parent? fun n _ => by
    rw [hrelinked.kind]
    rfl
  have hchildren' : refused.children f = front ++ [r] := (hall.children f).trans hchildren
  have hrow : refused.children p = d.children p ++ [] := by rw [hall.children, List.append_nil]
  have hone : ∀ n ∈ [r], refused.Elsewhere p n := by
    intro n hn
    exact elsewhere_of_mem_children hforest hne (by rw [List.mem_singleton.1 hn, hchildren']; simp)
  have hfit : refused.fitting p [r] = [r] := by
    rw [hall.fitting, fitting_cons_of_free hfree]
    rfl
  obtain ⟨-, hhomes, hlength⟩ := insertEach_fitting hforest (hrelinked.has.2 hp)
    ((hrelinked.leaf? p).trans hinner) hone (List.nodup_singleton r) hrow
  rw [hfit, List.append_nil] at hhomes
  rw [hfit] at hlength
  rw [hsplit, insertNode_congr (target_last hforest hchildren')]
  exact ⟨hall.rehomes ((relinked_counted d 1).trans hrelinked) hhomes, (Nat.add_right_cancel hlength).trans hcount⟩

/-- What is there when a fragment has been put into `p` in part. -/
theorem HalfInserted.rehomes (h : d.HalfInserted p f reference nodes row) (hf : d.Forest) (hp : d.Has p)
    (hinner : d.leaf? p = none) (hfragment : d.isFragment f = true) :
    let d' := d.insertBefore p f reference
    d'.notices ≠ d.notices ∧ d.Rehomes d' p nodes row [] := by
  cases h with
  | around hrow hb hcontains =>
    have hne := ne_of_contains_child hf hp hb hcontains
    obtain ⟨-, hhomes, hlength⟩ := insertBefore_fitting hf hp hinner hfragment hne hrow
    refine ⟨fun he => ?_, hhomes⟩
    have hlt := length_fitting_lt hb hcontains
    rw [he] at hlength
    omega
  | astray hne hchildren hfront hfree =>
    obtain ⟨hhomes, hlength⟩ := insertBefore_astray hf hp hinner hfragment hne hchildren hfree
    refine ⟨fun he => ?_, hhomes⟩
    have hpos := List.length_pos_of_ne_nil hfront
    rw [he] at hlength
    omega

/-- Nothing is refused if none of the children contains `p`, which has the reference as a child. -/
theorem notices_insertBefore (hf : d.Forest) (hp : d.Has p) (hinner : d.leaf? p = none)
    (hfragment : d.isFragment f = true) (hfree : ∀ n ∈ d.children f, d.contains n p = false)
    (hreference : ∀ r, reference = some r → d.parent? r = some p) :
    (d.insertBefore p f reference).notices = d.notices := by
  rw [insertBefore_of_isFragment hfragment]
  refine notices_insertEach (d := d.count) (hf.counted 1) (fun n hn => ?_) hreference
  have hparent := hf.parent_of_mem hn
  exact Adoptable.counted
    ⟨hp, has_of_parent? hparent, hinner, hf.solid hparent, not_above_of_contains hf hp (hfree n hn)⟩ 1

theorem exists_row_of_reference (hf : d.Forest) (hreference : ∀ r, reference = some r → d.parent? r = some p) :
    ∃ front behind, d.children p = front ++ behind ∧ reference = behind.head? := by
  cases reference with
  | none => exact ⟨d.children p, [], (List.append_nil _).symm, rfl⟩
  | some r =>
    obtain ⟨front, behind, hrow⟩ := List.append_of_mem (hf.mem_of_parent (hreference r rfl))
    exact ⟨front, r :: behind, hrow, rfl⟩

/-- A reference that is no child of `p` is refused for all children of a fragment, unless it is the last one of
them and could stand in `p` itself. -/
theorem refuses_foreign (hf : d.Forest) (hr : d.parent? r ≠ some p)
    (hlast : ∀ front, d.children f = front ++ [r] → d.contains r p = true) (hn : n ∈ d.children f) :
    d.Refuses p n (some r) := by
  by_cases hself : n = r
  · subst hself
    obtain ⟨front, behind, hchildren⟩ := List.append_of_mem hn
    cases behind with
    | nil => exact .inr (.inl (hlast front hchildren))
    | cons s behind =>
      refine .inr (.inr ⟨s, ?_, ?_⟩)
      · rw [target, if_pos rfl, nextSibling?_eq hf hchildren]
        rfl
      · rw [hf.parent_of_mem (p := f) (n := s) (by rw [hchildren]; simp), ← hf.parent_of_mem hn]
        exact hr
  · exact .inr (.inr ⟨r, if_neg fun he => hself (Option.some.inj he).symm, hr⟩)

/-- If putting a fragment somewhere fails, nothing has come of it or part of it. -/
theorem noted_or_halfInserted (hf : d.Forest) (hp : d.Has p) (hfragment : d.isFragment f = true)
    (hfail : (d.insertBefore p f reference).notices ≠ d.notices) :
    d.Noted (d.insertBefore p f reference) ∨
      d.leaf? p = none ∧ ∃ nodes row, d.HalfInserted p f reference nodes row := by
  have hall : (∀ n ∈ d.children f, d.Refuses p n reference) → d.Noted (d.insertBefore p f reference) := by
    intro h
    rw [insertBefore_of_isFragment hfragment]
    exact (Noted.count d).trans (insertEach_refused fun n hn => (Noted.count d).refuses (h n hn)).1
  by_cases hinner : d.leaf? p = none
  case neg => exact .inl (hall fun n _ => .inl hinner)
  by_cases hreference : ∀ r, reference = some r → d.parent? r = some p
  · by_cases hfree : ∀ n ∈ d.children f, d.contains n p = false
    · exact absurd (notices_insertBefore hf hp hinner hfragment hfree hreference) hfail
    · simp only [not_forall, Bool.not_eq_false] at hfree
      obtain ⟨b, hb, hcontains⟩ := hfree
      by_cases hfit : d.fitting p (d.children f) = []
      · refine .inl (hall fun n hn => .inr (.inl ?_))
        rw [fitting, List.filter_eq_nil_iff] at hfit
        simpa using hfit n hn
      · obtain ⟨front, behind, hrow, rfl⟩ := exists_row_of_reference hf hreference
        exact .inr ⟨hinner, _, _, .around hrow hb hcontains hfit⟩
  · simp only [not_forall] at hreference
    obtain ⟨r, rfl, hr⟩ := hreference
    by_cases hlast : ∀ front, d.children f = front ++ [r] → d.contains r p = true
    · exact .inl (hall fun n hn => refuses_foreign hf hr hlast hn)
    · simp only [not_forall, Bool.not_eq_true] at hlast
      obtain ⟨front, hchildren, hfree⟩ := hlast
      have hparent : d.parent? r = some f := hf.parent_of_mem (by simp [hchildren])
      have hne : f ≠ p := fun he => hr (he ▸ hparent)
      refine .inr ⟨hinner, _, _, .astray hne hchildren ?_ hfree⟩
      -- an only child that is its own reference is put at the end, and nothing is refused
      rintro rfl
      rw [List.nil_append] at hchildren
      have htarget : d.count.target r (some r) = d.count.target r none :=
        target_last (d := d.count) (hf.counted 1) (show d.count.children f = [] ++ [r] from hchildren)
      have hsame : d.insertBefore p f (some r) = d.insertBefore p f none := by
        rw [insertBefore_of_isFragment hfragment, insertBefore_of_isFragment hfragment, hchildren]
        exact insertNode_congr htarget
      rw [hsame] at hfail
      refine hfail (notices_insertBefore hf hp hinner hfragment (fun n hn => ?_) nofun)
      rw [hchildren, List.mem_singleton] at hn
      exact hn ▸ hfree

/-! ### Any call -/

/-- The calls that move nodes that are there, or attributes onto elements and off them. -/
def Call.relinks : Call → Bool
  | .edit (.insert ..) | .edit (.append ..) | .edit (.remove ..) | .edit (.replace ..) => true
  | .putAttribute .. | .takeAttribute .. => true
  | _ => false

/-- A notice has been left. -/
def Fails (d : Document) (c : Call) : Prop :=
  (c.apply d).notices ≠ d.notices

/-- The calls that fail when part of the work has been done: `nodes` are in `p` then, which has the children
`row`, and `gone` are in nothing. -/
inductive HalfDone (d : Document) : Call → NodeId → List NodeId → List NodeId → List NodeId → Prop where
  | insert {p f : NodeId} {reference : Option NodeId} {nodes row : List NodeId} : d.isFragment f = true →
      d.leaf? p = none → d.HalfInserted p f reference nodes row →
      HalfDone d (.edit (.insert p f reference)) p nodes row []
  | append {p f : NodeId} {nodes row : List NodeId} : d.isFragment f = true → d.leaf? p = none →
      d.HalfInserted p f none nodes row → HalfDone d (.edit (.append p f)) p nodes row []
  /-- The child is taken away even if nothing comes in its place. -/
  | replace {p f c b : NodeId} {front behind : List NodeId} : d.isFragment f = true →
      d.children p = front ++ c :: behind → b ∈ d.children f → d.contains b p = true →
      HalfDone d (.edit (.replace p f c)) p (d.fitting p (d.children f))
        (front ++ d.fitting p (d.children f) ++ behind) [c]

theorem replaceChild_of_isFragment (hf : d.Forest) (hc : d.parent? c = some p)
    (hfragment : d.isFragment f = true) :
    d.replaceChild p f c = (d.insertBefore p f (some c)).detach c := by
  refine replaceChild_eq hf hc ?_ fun hsolid => ?_
  · rintro rfl
    rw [hf.solid hc] at hfragment
    cases hfragment
  · rw [hsolid] at hfragment
    cases hfragment

theorem HalfDone.mem_nodes {call : Call} (h : d.HalfDone call p nodes row gone) : p ∈ call.nodes := by
  cases h <;> exact List.mem_cons_self ..

/-- What is there after a call that fails half done. -/
theorem HalfDone.rehomes {call : Call} (h : d.HalfDone call p nodes row gone) (hf : d.Forest) (hp : d.Has p) :
    d.Fails call ∧ d.Rehomes (call.apply d) p nodes row gone := by
  cases h with
  | insert hfragment hinner h => exact h.rehomes hf hp hinner hfragment
  | append hfragment hinner h => exact h.rehomes hf hp hinner hfragment
  | @replace _ f c b front behind hfragment hrow hb hcontains =>
    have hparent : d.parent? c = some p := hf.parent_of_mem (by rw [hrow]; simp)
    have hne := ne_of_contains_child hf hp hb hcontains
    obtain ⟨hforest, hhomes, hlength⟩ := insertBefore_fitting hf hp (hf.inner hparent) hfragment hne hrow
    have hc : c ∉ d.fitting p (d.children f) := fun hmem =>
      (elsewhere_of_mem_children hf hne (mem_fitting.1 hmem).1).parent? hparent
    have heq : Call.apply d (.edit (.replace p f c)) = (d.insertBefore p f (some c)).detach c :=
      replaceChild_of_isFragment hf hparent hfragment
    rw [Fails, heq, notices_detach]
    refine ⟨fun he => ?_, hhomes.detach hforest hc⟩
    have hlt := length_fitting_lt hb hcontains
    rw [List.head?_cons, he] at hlength
    omega

/-- A call that fails half done changes where some nodes stand. -/
theorem HalfDone.not_sameLinks {call : Call} (h : d.HalfDone call p nodes row gone) (hf : d.Forest)
    (hp : d.Has p) : ¬ d.SameLinks (call.apply d) := by
  intro hsame
  have hrow := (h.rehomes hf hp).2.row
  rw [hsame.children] at hrow
  have hlonger : ∀ {f reference nodes row}, d.HalfInserted p f reference nodes row → d.children p ≠ row := by
    intro f reference nodes row h
    cases h with
    | around hchildren _ _ hfit =>
      rw [hchildren]
      intro he
      have hlength := congrArg List.length he
      have hpos := List.length_pos_of_ne_nil hfit
      simp only [List.length_append] at hlength
      omega
    | astray => simp
  cases h with
  | insert _ _ h => exact hlonger h hrow
  | append _ _ h => exact hlonger h hrow
  | @replace _ f c b front behind _ hchildren hb hcontains =>
    have hmem : c ∈ d.children p := by rw [hchildren]; simp
    have hnd := hf.nodup p
    rw [hchildren, List.nodup_append, List.nodup_cons] at hnd
    rw [hrow, List.mem_append, List.mem_append, mem_fitting] at hmem
    obtain (hfront | ⟨hf', -⟩) | hbehind := hmem
    · exact hnd.2.2 c hfront c (List.mem_cons_self ..) rfl
    · exact (elsewhere_of_mem_children hf (ne_of_contains_child hf hp hb hcontains) hf').parent?
        (hf.parent_of_mem (by rw [hchildren]; simp))
    · exact hnd.2.1.1 hbehind

/-- Moving one node is all or nothing. -/
theorem noted_insertBefore (hf : d.Forest) (hp : d.Has p) (hn : d.Has n) (hsolid : d.isFragment n = false)
    (hfail : (d.insertBefore p n reference).notices ≠ d.notices) : d.Noted (d.insertBefore p n reference) := by
  have heq : d.insertBefore p n reference = d.count.insertNode p n reference :=
    if_neg (by rw [show d.count.isFragment n = false from hsolid]; exact Bool.false_ne_true)
  rw [heq] at hfail ⊢
  have hcases := insertNode_cases (d := d.count) (hf.counted 1) hp hn hsolid reference
  obtain ⟨notice, h⟩ | ⟨-, reference', h⟩ := hcases
  · rw [h]
    exact (Noted.count d).trans (Noted.note _ notice)
  · rw [h, notices_attach] at hfail
    exact absurd rfl hfail

theorem noted_or_halfDone_replace (hf : d.Forest) (hp : d.Has p)
    (hfail : (d.replaceChild p n c).notices ≠ d.notices) :
    d.Noted (d.replaceChild p n c) ∨
      ∃ nodes row gone, d.HalfDone (.edit (.replace p n c)) p nodes row gone := by
  by_cases hc : d.parent? c = some p
  case neg =>
    rw [replaceChild, if_neg hc]
    exact .inl (.note ..)
  cases hsolid : d.isFragment n with
  | true =>
    right
    rw [replaceChild_of_isFragment hf hc hsolid, notices_detach] at hfail
    have hblocked : ∃ b ∈ d.children n, d.contains b p = true := by
      by_contra hfree
      simp only [not_exists, not_and, Bool.not_eq_true] at hfree
      exact hfail (notices_insertBefore hf hp (hf.inner hc) hsolid hfree fun r hr => Option.some.inj hr ▸ hc)
    obtain ⟨b, hb, hcontains⟩ := hblocked
    obtain ⟨front, behind, hrow⟩ := List.append_of_mem (hf.mem_of_parent hc)
    exact ⟨_, _, _, .replace hsolid hrow hb hcontains⟩
  | false =>
    left
    have hcount : d.count.isFragment n = false := hsolid
    by_cases hself : n = c
    · rw [replaceChild, if_pos hc, if_pos hself]
      exact .refl d
    · rw [replaceChild, if_pos hc, if_neg hself] at hfail ⊢
      dsimp only at hfail ⊢
      rw [hcount, if_neg Bool.false_ne_true] at hfail ⊢
      split_ifs at hfail ⊢
      · exact (Noted.count d).trans (.note ..)
      · exact absurd (notices_detach (d := d.count) (n := n)) hfail

theorem notices_placeAttribute {a : AttributeId} : (d.placeAttribute n a).notices = d.notices := by
  unfold placeAttribute
  dsimp only
  split <;> rfl

/-- Putting an attribute on an element is all or nothing. -/
theorem noted_putAttribute {a : AttributeId} (hfail : (d.putAttribute n a).notices ≠ d.notices) :
    d.Noted (d.putAttribute n a) := by
  cases helement : d.isElement n with
  | false =>
    rw [putAttribute, helement, if_neg Bool.false_ne_true]
    exact .note ..
  | true =>
    cases howner : (d.attr a).owner with
    | none =>
      have hplace : d.putAttribute n a = d.placeAttribute n a := by
        rw [putAttribute, helement, if_pos rfl, howner]
      rw [hplace] at hfail
      exact absurd notices_placeAttribute hfail
    | some owner =>
      rw [putAttribute, helement, if_pos rfl, howner]
      dsimp only
      split_ifs
      · exact .refl d
      · exact .note ..

/-- A call that fails has done nothing or part of the work. -/
theorem noted_or_halfDone (hf : d.Forest) {call : Call} (hrelinks : call.relinks = true)
    (hn : ∀ n ∈ call.nodes, d.Has n) (hfail : d.Fails call) :
    d.Noted (call.apply d) ∨ ∃ p nodes row gone, d.HalfDone call p nodes row gone := by
  have hinsert : ∀ {p n reference}, d.Has p → d.Has n → (d.insertBefore p n reference).notices ≠ d.notices →
      d.Noted (d.insertBefore p n reference) ∨
        d.isFragment n = true ∧ d.leaf? p = none ∧ ∃ nodes row, d.HalfInserted p n reference nodes row := by
    intro p n reference hp hn hfail
    cases hsolid : d.isFragment n with
    | true => exact (noted_or_halfInserted hf hp hsolid hfail).imp_right (⟨rfl, ·⟩)
    | false => exact .inl (noted_insertBefore hf hp hn hsolid hfail)
  cases call with
  | putAttribute n a => exact .inl (noted_putAttribute hfail)
  | takeAttribute n a =>
    left
    by_cases ha : a ∈ (d.node n).attributes
    · rw [Fails, Call.apply, takeAttribute_eq ha] at hfail
      exact absurd rfl hfail
    · rw [Call.apply, takeAttribute, if_neg (by simpa using ha)]
      exact .note ..
  | edit e =>
    cases e with
    | insert p n reference =>
      have hp := hn p (by simp [Call.nodes, Edit.arguments])
      have hn := hn n (by simp [Call.nodes, Edit.arguments])
      refine (hinsert hp hn hfail).imp_right ?_
      rintro ⟨hfragment, hinner, nodes, row, h⟩
      exact ⟨p, nodes, row, [], .insert hfragment hinner h⟩
    | append p n =>
      have hp := hn p (by simp [Call.nodes, Edit.arguments])
      have hn := hn n (by simp [Call.nodes, Edit.arguments])
      refine (hinsert hp hn hfail).imp_right ?_
      rintro ⟨hfragment, hinner, nodes, row, h⟩
      exact ⟨p, nodes, row, [], .append hfragment hinner h⟩
    | remove p c =>
      left
      by_cases hc : d.parent? c = some p
      · rw [Fails, Call.apply, Edit.apply, removeChild_eq hc] at hfail
        exact absurd notices_detach hfail
      · rw [Call.apply, Edit.apply, removeChild, if_neg hc]
        exact .note ..
    | replace p n c =>
      have hp := hn p (by simp [Call.nodes, Edit.arguments])
      refine (noted_or_halfDone_replace hf hp hfail).imp_right ?_
      rintro ⟨nodes, row, gone, h⟩
      exact ⟨p, nodes, row, gone, h⟩
    | create | parse | copy | setText => cases hrelinks
  | createAttribute | createAttributeFor | setAttributeValue | setAttribute | removeAttribute => cases hrelinks

/-- A call that moves nodes or attributes and fails has changed no list of children, no parent, no list of
attributes and no owner of an attribute, except in the cases of `HalfDone`. In these it always fails, and `nodes`
have come into `p`, which has the children `row` then, `gone` are in nothing, and all else is as before. -/
theorem failed_unchanged_iff (hf : d.Forest) {call : Call} (hrelinks : call.relinks = true)
    (hn : ∀ n ∈ call.nodes, d.Has n) :
    (d.Fails call →
        (d.SameLinks (call.apply d) ↔ ¬ ∃ p nodes row gone, d.HalfDone call p nodes row gone)) ∧
      ∀ p nodes row gone, d.HalfDone call p nodes row gone →
        d.Fails call ∧ d.Rehomes (call.apply d) p nodes row gone := by
  refine ⟨fun hfail => ⟨?_, fun hwhole => ?_⟩, ?_⟩
  · rintro hsame ⟨p, nodes, row, gone, h⟩
    exact h.not_sameLinks hf (hn p h.mem_nodes) hsame
  · exact ((noted_or_halfDone hf hrelinks hn hfail).resolve_right hwhole).sameLinks
  · intro p nodes row gone h
    exact h.rehomes hf (hn p h.mem_nodes)

/-- A fragment with a paragraph, an element in that, and a second paragraph. -/
def nestedFragment : Document :=
  (Document.empty.parse .html "<p><i></i></p><b></b>").2

/-- The paragraph is not put into the element in it. If the element is to be replaced by the fragment, then the
second paragraph takes its place, and it is taken away although the first one has not come. -/
theorem failed_unchanged_nestedFragment :
    let d := nestedFragment
    let refused : Call := .edit (.append ⟨2⟩ ⟨1⟩)
    let half : Call := .edit (.replace ⟨1⟩ ⟨0⟩ ⟨2⟩)
    (d.Forest ∧ (refused.relinks = true ∧ ∀ n ∈ refused.nodes, d.Has n) ∧
        half.relinks = true ∧ ∀ n ∈ half.nodes, d.Has n) ∧
      (d.Fails refused ∧ d.SameLinks (refused.apply d)) ∧
      d.Fails half ∧ (half.apply d).children ⟨1⟩ = [⟨3⟩] ∧ (half.apply d).children ⟨0⟩ = [⟨1⟩] ∧
        (half.apply d).parent? ⟨2⟩ = none := by
  intro d refused half
  have hf : d.Forest := (sound_empty.parse .html _).forest
  have hrefused : ∀ n ∈ refused.nodes, d.Has n := by decide +kernel
  have hhalf : ∀ n ∈ half.nodes, d.Has n := by decide +kernel
  have hfails : d.Fails refused := by
    unfold Fails
    decide +kernel
  have hwhole : ¬ ∃ p nodes row gone, d.HalfDone (.edit (.append ⟨2⟩ ⟨1⟩)) p nodes row gone := by
    rintro ⟨p, nodes, row, gone, h⟩
    cases h with
    | append hfragment => exact absurd hfragment (by decide +kernel)
  have hdone : d.HalfDone half ⟨1⟩ (d.fitting ⟨1⟩ (d.children ⟨0⟩))
      ([] ++ d.fitting ⟨1⟩ (d.children ⟨0⟩) ++ []) [⟨2⟩] :=
    .replace (b := ⟨1⟩) (by decide +kernel) (by decide +kernel) (by decide +kernel) (by decide +kernel)
  have hsame := ((failed_unchanged_iff hf rfl hrefused).1 hfails).2 hwhole
  obtain ⟨hfail, hhomes⟩ := (failed_unchanged_iff hf rfl hhalf).2 _ _ _ _ hdone
  refine ⟨⟨hf, ⟨rfl, hrefused⟩, rfl, hhalf⟩, ⟨hfails, hsame⟩, hfail, hhomes.row.trans (by decide +kernel),
    (hhomes.left ⟨0⟩ (by decide)).trans (by decide +kernel), (hhomes.parent? ⟨2⟩).trans (by decide +kernel)⟩

end LiveMarkup.Document
