import LiveMarkup.Proofs.Rendering.Trimming
/-!
# The order of attributes

An attribute that is taken off an element and put back comes behind all others. So what is shown again
is what it was up to the order of the attributes (`Markup.Tree.Alike`, and `Plant.Alike` for nodes that
have been made). Grafts that do not look at that order take alike plants to alike ones
(`Plant.AlikeAll.graft`), and what happens at one place happens to a list of siblings (`Plant.Row`).
-/

namespace LiveMarkup

open Markup (Tree Tag)

/-- Two start tags say the same, perhaps in another order. -/
structure Markup.Tag.Alike (tag tag' : Tag) : Prop where
  name : tag.name = tag'.name
  space : tag.space = tag'.space
  attributes : tag.attributes.Perm tag'.attributes

theorem Markup.Tag.Alike.refl (tag : Tag) : tag.Alike tag :=
  ⟨rfl, rfl, .refl _⟩

theorem Markup.Tag.Alike.trans {tag tag' tag'' : Tag} (h : tag.Alike tag') (h' : tag'.Alike tag'') :
    tag.Alike tag'' :=
  ⟨h.name.trans h'.name, h.space.trans h'.space, h.attributes.trans h'.attributes⟩

mutual

/-- Two trees are the same but for the order of attributes. -/
def Markup.Tree.Alike : Tree → Tree → Prop
  | .element tag children, .element tag' children' => tag.Alike tag' ∧ AlikeAll children children'
  | .text data, .text data' => data = data'
  | .comment data, .comment data' => data = data'
  | _, _ => False

/-- Some trees are the same as others but for the order of attributes. -/
def Markup.Tree.AlikeAll : List Tree → List Tree → Prop
  | [], [] => True
  | t :: ts, u :: us => t.Alike u ∧ AlikeAll ts us
  | _, _ => False

end

namespace Plant

mutual

/-- Two plants are of the same nodes, and the same but for the order of attributes. -/
def Alike : Plant → Plant → Prop
  | element id tag children, element id' tag' children' =>
    id = id' ∧ tag.Alike tag' ∧ AlikeAll children children'
  | text id data, text id' data' => id = id' ∧ data = data'
  | comment id data, comment id' data' => id = id' ∧ data = data'
  | _, _ => False

/-- Some plants are the same as others but for the order of attributes. -/
def AlikeAll : List Plant → List Plant → Prop
  | [], [] => True
  | p :: ps, q :: qs => p.Alike q ∧ AlikeAll ps qs
  | _, _ => False

end

variable {p q r : Plant} {ps qs rs ps' qs' : List Plant} {n : NodeId} {f g : Plant → List Plant}

theorem alike_refl : (∀ q : Plant, q.Alike q) ∧ ∀ qs : List Plant, AlikeAll qs qs := by
  refine induct ?_ ?_ ?_ trivial fun q qs hq hqs => ⟨hq, hqs⟩
  · intro id tag children ih
    rw [Alike]
    exact ⟨rfl, .refl tag, ih⟩
  · intro id data
    rw [Alike]
    exact ⟨rfl, rfl⟩
  · intro id data
    rw [Alike]
    exact ⟨rfl, rfl⟩

theorem AlikeAll.refl (ps : List Plant) : AlikeAll ps ps :=
  alike_refl.2 ps

theorem alike_element {id : NodeId} {tag tag' : Tag} {children children' : List Plant}
    (htag : tag.Alike tag') (h : AlikeAll children children') :
    (element id tag children).Alike (.element id tag' children') := by
  rw [Alike]
  exact ⟨rfl, htag, h⟩

/-- Alike plants have the same topmost constructor. -/
theorem Alike.cases {motive : (p q : Plant) → p.Alike q → Prop} {p q : Plant} (h : p.Alike q)
    (element : ∀ id tag tag' children children' (htag : tag.Alike tag')
      (h : AlikeAll children children'), motive (.element id tag children)
        (.element id tag' children') (alike_element htag h))
    (text : ∀ id data, motive (.text id data) (.text id data) (alike_refl.1 _))
    (comment : ∀ id data, motive (.comment id data) (.comment id data) (alike_refl.1 _)) :
    motive p q h := by
  have hcopy := h
  cases p <;> cases q <;> rw [Alike] at hcopy <;> try exact False.elim hcopy
  case element.element id tag children id' tag' children' =>
    obtain ⟨rfl, htag, hchildren⟩ := hcopy
    exact element id tag tag' children children' htag hchildren
  case text.text id data id' data' =>
    obtain ⟨rfl, rfl⟩ := hcopy
    exact text id data
  case comment.comment id data id' data' =>
    obtain ⟨rfl, rfl⟩ := hcopy
    exact comment id data

theorem alike_trans :
    (∀ p q r : Plant, p.Alike q → q.Alike r → p.Alike r) ∧
      ∀ ps qs rs : List Plant, AlikeAll ps qs → AlikeAll qs rs → AlikeAll ps rs := by
  refine induct ?_ ?_ ?_ ?_ ?_
  · intro id tag children ih q r h h'
    cases q <;> rw [Alike] at h <;> try exact False.elim h
    cases r <;> rw [Alike] at h' <;> try exact False.elim h'
    rw [Alike]
    exact ⟨h.1.trans h'.1, h.2.1.trans h'.2.1, ih _ _ h.2.2 h'.2.2⟩
  · intro id data q r h h'
    cases q <;> rw [Alike] at h <;> try exact False.elim h
    cases r <;> rw [Alike] at h' <;> try exact False.elim h'
    rw [Alike]
    exact ⟨h.1.trans h'.1, h.2.trans h'.2⟩
  · intro id data q r h h'
    cases q <;> rw [Alike] at h <;> try exact False.elim h
    cases r <;> rw [Alike] at h' <;> try exact False.elim h'
    rw [Alike]
    exact ⟨h.1.trans h'.1, h.2.trans h'.2⟩
  · intro qs rs h h'
    cases qs with
    | nil => exact h'
    | cons q qs => exact False.elim h
  · intro p ps ihp ihps qs rs h h'
    cases qs with
    | nil => exact False.elim h
    | cons q qs =>
      cases rs with
      | nil => exact False.elim h'
      | cons r rs => exact ⟨ihp q r h.1 h'.1, ihps qs rs h.2 h'.2⟩

theorem AlikeAll.trans (h : AlikeAll ps qs) (h' : AlikeAll qs rs) : AlikeAll ps rs :=
  alike_trans.2 ps qs rs h h'

theorem AlikeAll.append (h : AlikeAll ps qs) (h' : AlikeAll ps' qs') :
    AlikeAll (ps ++ ps') (qs ++ qs') := by
  induction ps generalizing qs with
  | nil =>
    cases qs with
    | nil => exact h'
    | cons q qs => exact False.elim h
  | cons p ps ih =>
    cases qs with
    | nil => exact False.elim h
    | cons q qs => exact ⟨h.1, ih h.2⟩

theorem AlikeAll.single (h : p.Alike q) : AlikeAll [p] [q] :=
  ⟨h, trivial⟩

theorem Alike.id_eq (h : p.Alike q) : p.id = q.id := by
  induction h using Alike.cases with
  | element | text | comment => rfl

theorem AlikeAll.map_id (h : AlikeAll ps qs) : ps.map Plant.id = qs.map Plant.id := by
  induction ps generalizing qs with
  | nil =>
    cases qs with
    | nil => rfl
    | cons q qs => exact False.elim h
  | cons p ps ih =>
    cases qs with
    | nil => exact False.elim h
    | cons q qs => rw [List.map_cons, List.map_cons, h.1.id_eq, ih h.2]

theorem alike_ids :
    (∀ p q : Plant, p.Alike q → p.ids = q.ids) ∧
      ∀ ps qs : List Plant, AlikeAll ps qs → idsAll ps = idsAll qs := by
  refine induct ?_ ?_ ?_ ?_ ?_
  · intro id tag children ih q h
    cases q <;> rw [Alike] at h <;> try exact False.elim h
    rw [ids, ids, h.1, ih _ h.2.2]
  · intro id data q h
    cases q <;> rw [Alike] at h <;> try exact False.elim h
    rw [ids, ids, h.1]
  · intro id data q h
    cases q <;> rw [Alike] at h <;> try exact False.elim h
    rw [ids, ids, h.1]
  · intro qs h
    cases qs with
    | nil => rfl
    | cons q qs => exact False.elim h
  · intro p ps ihp ihps qs h
    cases qs with
    | nil => exact False.elim h
    | cons q qs => rw [idsAll_cons, idsAll_cons, ihp q h.1, ihps qs h.2]

theorem AlikeAll.idsAll (h : AlikeAll ps qs) : Plant.idsAll ps = Plant.idsAll qs :=
  alike_ids.2 ps qs h

theorem alike_trees :
    (∀ p q : Plant, p.Alike q → p.tree.Alike q.tree) ∧
      ∀ ps qs : List Plant, AlikeAll ps qs → Tree.AlikeAll (trees ps) (trees qs) := by
  refine induct ?_ ?_ ?_ ?_ ?_
  · intro id tag children ih q h
    cases q <;> rw [Alike] at h <;> try exact False.elim h
    rw [tree, tree, Tree.Alike]
    exact ⟨h.2.1, ih _ h.2.2⟩
  · intro id data q h
    cases q <;> rw [Alike] at h <;> try exact False.elim h
    rw [tree, tree, Tree.Alike]
    exact h.2
  · intro id data q h
    cases q <;> rw [Alike] at h <;> try exact False.elim h
    rw [tree, tree, Tree.Alike]
    exact h.2
  · intro qs h
    cases qs with
    | nil =>
      rw [trees_nil]
      trivial
    | cons q qs => exact False.elim h
  · intro p ps ihp ihps qs h
    cases qs with
    | nil => exact False.elim h
    | cons q qs =>
      rw [trees_cons, trees_cons]
      exact ⟨ihp q h.1, ihps qs h.2⟩

theorem AlikeAll.trees (h : AlikeAll ps qs) : Tree.AlikeAll (Plant.trees ps) (Plant.trees qs) :=
  alike_trees.2 ps qs h

/-- Grafts that take alike plants to alike ones. -/
def Respects (f g : Plant → List Plant) : Prop :=
  ∀ p q : Plant, p.Alike q → AlikeAll (f p) (g q)

theorem Respects.graft (hf : Respects f g) :
    (∀ p q : Plant, p.Alike q → AlikeAll (p.graft f) (q.graft g)) ∧
      ∀ ps qs : List Plant, AlikeAll ps qs → AlikeAll (graftAll f ps) (graftAll g qs) := by
  refine induct ?_ ?_ ?_ ?_ ?_
  · intro id tag children ih q h
    cases q <;> rw [Alike] at h <;> try exact False.elim h
    rw [Plant.graft, Plant.graft]
    refine hf _ _ ?_
    rw [Alike]
    exact ⟨h.1, h.2.1, ih _ h.2.2⟩
  · intro id data q h
    cases q <;> rw [Alike] at h <;> try exact False.elim h
    rw [Plant.graft, Plant.graft, h.1, h.2]
    exact hf _ _ (alike_refl.1 _)
  · intro id data q h
    cases q <;> rw [Alike] at h <;> try exact False.elim h
    rw [Plant.graft, Plant.graft, h.1, h.2]
    exact hf _ _ (alike_refl.1 _)
  · intro qs h
    cases qs with
    | nil =>
      rw [graftAll_nil, graftAll_nil]
      trivial
    | cons q qs => exact False.elim h
  · intro p ps ihp ihps qs h
    cases qs with
    | nil => exact False.elim h
    | cons q qs =>
      rw [graftAll_cons, graftAll_cons]
      exact (ihp q h.1).append (ihps qs h.2)

theorem AlikeAll.graft (h : AlikeAll ps qs) (hf : Respects f g) :
    AlikeAll (graftAll f ps) (graftAll g qs) :=
  hf.graft.2 ps qs h

/-! ### Grafts about one node -/

theorem respects_before (n : NodeId) (new : List Plant) : Respects (before n new) (before n new) := by
  intro p q h
  rw [before, before, h.id_eq]
  split
  · exact (AlikeAll.refl new).append (.single h)
  · exact .single h

theorem respects_without (n : NodeId) : Respects (without n) (without n) := by
  intro p q h
  rw [without, without, h.id_eq]
  split
  · exact trivial
  · exact .single h

theorem respects_say (n : NodeId) (data : String) : Respects (say n data) (say n data) := by
  intro p q h
  induction h using Alike.cases with
  | element id tag tag' children children' htag hchildren =>
    refine .single ?_
    rw [Alike]
    exact ⟨rfl, htag, hchildren⟩
  | text | comment => exact .refl _

theorem respects_adorn (n : NodeId) {f : List (String × String) → List (String × String)}
    (hf : ∀ l l' : List (String × String), l.Perm l' → (f l).Perm (f l')) :
    Respects (adorn n f) (adorn n f) := by
  intro p q h
  induction h using Alike.cases with
  | element id tag tag' children children' htag hchildren =>
    refine .single ?_
    rw [Alike]
    refine ⟨rfl, ?_, hchildren⟩
    split
    · exact ⟨htag.name, htag.space, hf _ _ htag.attributes⟩
    · exact htag
  | text | comment => exact .refl _

theorem respects_fill (n : NodeId) (new : List Plant) : Respects (fill n new) (fill n new) := by
  intro p q h
  induction h using Alike.cases with
  | element id tag tag' children children' htag hchildren =>
    refine .single ?_
    rw [Alike]
    refine ⟨rfl, htag, ?_⟩
    split
    · exact .refl new
    · exact hchildren
  | text | comment => exact .refl _

end Plant

/-! ### Trimmings -/

namespace Trimming

/-- Two trimmings add the same but for the order of attributes. -/
structure Alike (t t' : Trimming NodeId Plant) : Prop where
  before : ∀ k, Plant.AlikeAll (t.before k) (t'.before k)
  attributes : ∀ k, (t.attributes k).Perm (t'.attributes k)
  content : ∀ k, Option.Rel Plant.AlikeAll (t.content k) (t'.content k)

variable {s s' t t' : Trimming NodeId Plant}

theorem rel_refl (ps : Option (List Plant)) : Option.Rel Plant.AlikeAll ps ps := by
  cases ps with
  | none => exact .none
  | some ps => exact .some (.refl ps)

theorem Alike.refl (t : Trimming NodeId Plant) : t.Alike t :=
  ⟨fun _ => .refl _, fun _ => .refl _, fun _ => rel_refl _⟩

theorem Alike.join (h : s.Alike s') (h' : t.Alike t') : (s.join t).Alike (s'.join t') where
  before k := (h.before k).append (h'.before k)
  attributes k := (h.attributes k).append (h'.attributes k)
  content k := by
    show Option.Rel Plant.AlikeAll ((s.content k).or (t.content k)) ((s'.content k).or (t'.content k))
    have hs := h.content k
    generalize s.content k = a at hs
    generalize s'.content k = b at hs
    cases hs with
    | none => exact h'.content k
    | some hab => exact .some hab

theorem Alike.respects (h : t.Alike t') : Plant.Respects t.put t'.put := by
  intro p q hpq
  induction hpq using Plant.Alike.cases with
  | element id tag tag' children children' htag hchildren =>
    refine (h.before id).append (.single ?_)
    rw [Plant.Alike]
    refine ⟨rfl, ⟨htag.name, htag.space, htag.attributes.append (h.attributes id)⟩, ?_⟩
    have hc := h.content id
    generalize t.content id = a at hc
    generalize t'.content id = b at hc
    cases hc with
    | none => exact hchildren
    | some hab => exact hab
  | text id data => exact (h.before id).append (.refl _)
  | comment id data => exact (h.before id).append (.refl _)

theorem Alike.graftAll_put (h : t.Alike t') (ps : List Plant) :
    Plant.AlikeAll (Plant.graftAll t.put ps) (Plant.graftAll t'.put ps) :=
  (Plant.AlikeAll.refl ps).graft h.respects

end Trimming

/-! ### Siblings -/

namespace Plant

/-- Some plants are siblings, as topmost ones or below some node. -/
inductive Row : List Plant → List Plant → Prop where
  | self (ps : List Plant) : Row ps ps
  | inside {ps row children : List Plant} {id : NodeId} {tag : Tag}
      (mem : .element id tag children ∈ ps) (h : Row children row) : Row ps row

variable {p q r : Plant} {ps qs row : List Plant} {n : NodeId}

theorem Row.trans (h : Row ps row) {id : NodeId} {tag : Tag} {children : List Plant}
    (hmem : .element id tag children ∈ row) (h' : Row children row') : Row ps row' := by
  induction h with
  | self ps => exact .inside hmem h'
  | inside mem _ ih => exact .inside mem (ih hmem)

theorem Row.ids_subset (h : Row ps row) : idsAll row ⊆ idsAll ps := by
  induction h with
  | self ps => exact List.Subset.refl _
  | @inside ps row children id tag mem _ ih =>
    refine List.Subset.trans ih fun n hn => mem_idsAll.2 ⟨_, mem, ?_⟩
    rw [ids]
    exact List.mem_cons_of_mem _ hn

/-- Every node is among some siblings. -/
theorem exists_row :
    (∀ q : Plant, n ∈ q.ids → q.id = n ∨ ∃ row, (∃ id tag children, q = .element id tag children ∧
      Row children row) ∧ ∃ r ∈ row, r.id = n) ∧
    ∀ ps : List Plant, n ∈ idsAll ps → ∃ row, Row ps row ∧ ∃ r ∈ row, r.id = n := by
  refine induct ?_ ?_ ?_ ?_ ?_
  · intro id tag children ih hn
    rw [ids, List.mem_cons] at hn
    rcases hn with rfl | hn
    · exact .inl rfl
    · obtain ⟨row, hrow, hr⟩ := ih hn
      exact .inr ⟨row, ⟨id, tag, children, rfl, hrow⟩, hr⟩
  · intro id data hn
    rw [ids, List.mem_singleton] at hn
    exact .inl hn.symm
  · intro id data hn
    rw [ids, List.mem_singleton] at hn
    exact .inl hn.symm
  · intro hn
    rw [idsAll_nil] at hn
    cases hn
  · intro q qs ihq ihqs hn
    rw [idsAll_cons, List.mem_append] at hn
    rcases hn with hn | hn
    · rcases ihq hn with hid | ⟨row, ⟨id, tag, children, rfl, hrow⟩, hr⟩
      · exact ⟨q :: qs, .self _, q, List.mem_cons_self .., hid⟩
      · exact ⟨row, .inside (List.mem_cons_self ..) hrow, hr⟩
    · obtain ⟨row, hrow, r, hr, hid⟩ := ihqs hn
      cases hrow with
      | self => exact ⟨q :: qs, .self _, r, List.mem_cons_of_mem _ hr, hid⟩
      | inside mem h => exact ⟨row, .inside (List.mem_cons_of_mem _ mem) h, r, hr, hid⟩

theorem AlikeAll.mem (h : AlikeAll ps qs) (hq : q ∈ qs) : ∃ p ∈ ps, p.Alike q := by
  induction ps generalizing qs with
  | nil =>
    cases qs with
    | nil => cases hq
    | cons r qs => exact False.elim h
  | cons p ps ih =>
    cases qs with
    | nil => exact False.elim h
    | cons r qs =>
      rcases List.mem_cons.1 hq with rfl | hq
      · exact ⟨p, List.mem_cons_self .., h.1⟩
      · obtain ⟨p', hp', halike⟩ := ih h.2 hq
        exact ⟨p', List.mem_cons_of_mem _ hp', halike⟩

/-- Alike plants have alike siblings. -/
theorem AlikeAll.exists_row (h : AlikeAll ps qs) (hrow : Row qs row) :
    ∃ row', Row ps row' ∧ AlikeAll row' row := by
  induction hrow generalizing ps with
  | self qs => exact ⟨ps, .self ps, h⟩
  | @inside qs row children id tag mem _ ih =>
    obtain ⟨p, hp, halike⟩ := h.mem mem
    cases p <;> rw [Alike] at halike <;> try exact False.elim halike
    obtain ⟨row', hrow', halike'⟩ := ih halike.2.2
    exact ⟨row', .inside hp hrow', halike'⟩

/-- Two nodes are siblings. -/
def Beside (m n : NodeId) (ps : List Plant) : Prop :=
  ∃ row, Row ps row ∧ m ∈ row.map Plant.id ∧ n ∈ row.map Plant.id

theorem AlikeAll.beside {m : NodeId} (h : AlikeAll ps qs) (hb : Beside m n qs) : Beside m n ps := by
  obtain ⟨row, hrow, hm, hn⟩ := hb
  obtain ⟨row', hrow', halike⟩ := h.exists_row hrow
  rw [← halike.map_id] at hm hn
  exact ⟨row', hrow', hm, hn⟩

end Plant

namespace Document

variable {d : Document} {c m n : NodeId} {ps row : List Plant}

/-- Siblings make up all the children of a node. -/
theorem Bears.of_row (h : d.Bears (some c) ps) (hrow : Plant.Row ps row) :
    ∃ p, d.Bears (some p) row := by
  induction hrow generalizing c with
  | self ps => exact ⟨c, h⟩
  | inside mem _ ih =>
    cases h.stand _ mem with
    | element _ _ _ row below =>
      exact ih ⟨fun p hp => by cases hp; exact row, below⟩

theorem Bears.parent_of_beside (hf : d.Forest) (h : d.Bears (some c) ps) (hb : Plant.Beside m n ps) :
    ∃ p, d.parent? m = some p ∧ d.parent? n = some p := by
  obtain ⟨row, hrow, hm, hn⟩ := hb
  obtain ⟨p, hp⟩ := h.of_row hrow
  exact ⟨p, hf.parent_of_mem (hp.row p rfl ▸ hm), hf.parent_of_mem (hp.row p rfl ▸ hn)⟩

end Document

end LiveMarkup
