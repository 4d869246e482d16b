import LiveMarkup.Proofs.Document.Edits
/-!
# What is put where

Putting a node into `p` is a change of lists of children. What a node stands for (`bundle`) is taken out of all
of them, that of `p` included, and comes back in one place of that of `p`: in front of the reference, at the end,
or in the place of the child that is replaced (`mutators_rearrange`). Where it has been before makes no
difference to that, even if it has been in `p`, on whichever side of the reference. All other lists are what is
left of them, and no other node has another parent (`Rehomes`).
-/

namespace LiveMarkup.Document

variable {d d' : Document} {p q x r : NodeId} {nodes row gone front behind : List NodeId}

/-- The nodes that are moved when a node is put somewhere: a fragment stands for its children. -/
def bundle (d : Document) (x : NodeId) : List NodeId :=
  if d.isFragment x then d.children x else [x]

/-- Some nodes have become children of `p`, which has these children now, and some others have lost their
parent. Nothing else stands elsewhere than before, and apart from where nodes stand nothing has changed. -/
structure Rehomes (d d' : Document) (p : NodeId) (nodes row gone : List NodeId) : Prop where
  row : d'.children p = row
  left : ∀ q, q ≠ p → d'.children q = (d.children q).filter (· ∉ nodes)
  parent? : ∀ m, d'.parent? m = if m ∈ nodes then some p else if m ∈ gone then none else d.parent? m
  relinked : Relinked d d'

/-- A list of children from which nothing has come is as it was. -/
theorem Rehomes.children_of_stays (h : d.Rehomes d' p nodes row gone) (hf : d.Forest) (hq : q ≠ p)
    (hstays : ∀ n ∈ nodes, d.parent? n ≠ some q) : d'.children q = d.children q := by
  rw [h.left q hq]
  exact filter_notMem_of_disjoint fun n hn => hf.not_mem_children_of_ne (hstays n hn)

/-- `p` has got what a node stands for. A fragment is empty then, unless it is `p` itself. -/
structure Receives (d d' : Document) (p x : NodeId) (row gone : List NodeId) : Prop
    extends Rehomes d d' p (d.bundle x) row gone where
  emptied : d.isFragment x = true → x ≠ p → d'.children x = []
  kept : ∀ q, q ≠ p → (∀ n ∈ d.bundle x, d.parent? n ≠ some q) → d'.children q = d.children q
  notices : d'.notices = d.notices

theorem bundle_of_isFragment (h : d.isFragment x = true) : d.bundle x = d.children x :=
  if_pos h

theorem bundle_of_solid (h : d.isFragment x = false) : d.bundle x = [x] :=
  if_neg (by rw [h]; exact Bool.false_ne_true)

theorem mem_bundle_self (h : d.isFragment x = false) : x ∈ d.bundle x := by
  rw [bundle_of_solid h]
  exact List.mem_singleton_self x

/-- What a node stands for is made of nodes that can be children. -/
theorem solid_of_mem_bundle (hf : d.Forest) (hx : d.Has x) {n : NodeId} (hn : n ∈ d.bundle x) :
    d.Has n ∧ d.isFragment n = false := by
  by_cases h : d.isFragment x = true
  · rw [bundle_of_isFragment h] at hn
    have hparent := hf.parent_of_mem hn
    exact ⟨has_of_parent? hparent, hf.solid hparent⟩
  · rw [Bool.not_eq_true] at h
    rw [bundle_of_solid h, List.mem_singleton] at hn
    exact hn ▸ ⟨hx, h⟩

theorem nodup_bundle (hf : d.Forest) (x : NodeId) : (d.bundle x).Nodup := by
  unfold bundle
  split
  · exact hf.nodup x
  · exact List.nodup_singleton x

theorem insertable_bundle (hf : d.Forest) (hp : d.Has p) (hx : d.Has x) (hinner : d.leaf? p = none)
    (hfree : ∀ n ∈ d.bundle x, d.contains n p = false) (hrow : d.children p = front ++ behind) :
    Insertable d p (d.bundle x) front behind where
  forest := hf
  children := hrow
  nodup := nodup_bundle hf x
  adoptable n hn := by
    obtain ⟨hhas, hsolid⟩ := solid_of_mem_bundle hf hx hn
    refine ⟨hp, hhas, hinner, hsolid, fun ha => ?_⟩
    have hcontains := (contains_iff hf hp).2 ha
    rw [hfree n hn] at hcontains
    cases hcontains

/-- Inserting is the same for a node and for a fragment. -/
theorem inserted_bundle (h : Insertable d p (d.bundle x) front behind)
    (hne : ∀ n ∈ d.bundle x, behind.head? ≠ some n) :
    Inserted d (d.insertBefore p x behind.head?) p (d.bundle x) front behind := by
  by_cases hfragment : d.isFragment x = true
  · rw [bundle_of_isFragment hfragment] at h hne ⊢
    exact inserted_insertBefore_fragment h hfragment hne
  · rw [Bool.not_eq_true] at hfragment
    rw [bundle_of_solid hfragment] at h ⊢
    exact inserted_insertBefore h

theorem Rehomes.receives (h : d.Rehomes d' p (d.bundle x) row gone) (hf : d.Forest)
    (hnotices : d'.notices = d.notices) : d.Receives d' p x row gone where
  toRehomes := h
  emptied hfragment hne := by
    rw [h.left x hne, bundle_of_isFragment hfragment]
    simp
  kept _ hq hstays := h.children_of_stays hf hq hstays
  notices := hnotices

theorem Inserted.rehomes (h : Inserted d d' p nodes front behind) :
    d.Rehomes d' p nodes (front.filter (· ∉ nodes) ++ nodes ++ behind.filter (· ∉ nodes)) [] where
  row := h.children_self
  left := h.children_of_ne
  parent? m := by
    rw [h.parent? m, if_neg List.not_mem_nil]
  relinked := h.relinked

/-- Taking away a child that has not come with the others. -/
theorem Rehomes.detach (h : d.Rehomes d' p nodes (front ++ r :: behind) []) (hf : d'.Forest)
    (hr : r ∉ nodes) : d.Rehomes (d'.detach r) p nodes (front ++ behind) [r] where
  row := by
    have hnd := hf.nodup p
    rw [h.row] at hnd
    rw [children_detach hf, h.row, filter_ne_append_cons hnd]
  left q hq := by
    have hparent : d'.parent? r = some p := hf.parent_of_mem (by rw [h.row]; simp)
    rw [children_detach hf, hf.filter_children, h.left q hq]
    rw [hparent]
    exact fun he => hq (Option.some.inj he).symm
  parent? m := by
    rw [parent?_detach, h.parent? m]
    by_cases hm : m = r
    · rw [if_pos hm, if_neg (hm ▸ hr), if_pos (hm ▸ List.mem_singleton_self r)]
    · rw [if_neg hm, if_neg List.not_mem_nil, if_neg fun hmem => hm (List.mem_singleton.1 hmem)]
  relinked := h.relinked.trans (relinked_detach d' r)

/-- What the operations that put a node `x` into an element or a fragment `p` do to the lists of children, if
nothing that is moved contains `p`. It is taken out of wherever it is, and put in order in front of the child `r`
that is not part of it, at the end of the list, or in the place of `r`, which has no parent then. -/
theorem mutators_rearrange (hf : d.Forest) (hp : d.Has p) (hx : d.Has x) (hinner : d.leaf? p = none)
    (hfree : ∀ n ∈ d.bundle x, d.contains n p = false) :
    let nodes := d.bundle x
    d.Receives (d.insertBefore p x none) p x ((d.children p).filter (· ∉ nodes) ++ nodes) [] ∧
      ∀ front r behind, d.children p = front ++ r :: behind → r ∉ nodes →
        d.Receives (d.insertBefore p x (some r)) p x
            (front.filter (· ∉ nodes) ++ nodes ++ r :: behind.filter (· ∉ nodes)) [] ∧
          d.Receives (d.replaceChild p x r) p x
            (front.filter (· ∉ nodes) ++ nodes ++ behind.filter (· ∉ nodes)) [r] := by
  intro nodes
  refine ⟨?_, fun front r behind hrow hr => ?_⟩
  · have hable : Insertable d p nodes (d.children p) [] :=
      insertable_bundle hf hp hx hinner hfree (List.append_nil _).symm
    have hins := inserted_bundle hable fun n _ he => by cases he
    have hhomes := hins.rehomes
    rw [List.filter_nil, List.append_nil] at hhomes
    exact hhomes.receives hf hins.notices
  · have hable : Insertable d p nodes front (r :: behind) :=
      insertable_bundle hf hp hx hinner hfree hrow
    have hins := inserted_bundle hable fun n hn he => hr (Option.some.inj he ▸ hn)
    rw [List.head?_cons] at hins
    have hhomes := hins.rehomes
    rw [List.filter_cons_of_pos (by simpa using hr)] at hhomes
    have hparent : d.parent? r = some p := hf.parent_of_mem (by rw [hrow]; simp)
    have hne : x ≠ r := by
      rintro rfl
      exact hr (mem_bundle_self (hf.solid hparent))
    have hreplace : d.replaceChild p x r = (d.insertBefore p x (some r)).detach r :=
      replaceChild_eq hf hparent hne fun hsolid => hable.adoptable x (mem_bundle_self hsolid)
    refine ⟨hhomes.receives hf hins.notices, ?_⟩
    rw [hreplace]
    exact (hhomes.detach hins.forest hr).receives hf (notices_detach.trans hins.notices)

/-- A paragraph with three elements, and a fragment with a text and an element. -/
def paragraphAndFragment : Document :=
  ((Document.empty.parse .html "<p><a></a><b></b><i></i></p>").2.parse .html "x<u></u>").2

/-- The first element of the paragraph is put in front of the last one, where the second one stands between them,
and the children of the fragment are put in the place of the second one. -/
theorem mutators_rearrange_paragraph :
    let d := paragraphAndFragment
    (d.Forest ∧ d.Has ⟨1⟩ ∧ d.Has ⟨2⟩ ∧ d.Has ⟨5⟩ ∧ d.leaf? ⟨1⟩ = none ∧
        (∀ n ∈ d.bundle ⟨2⟩, d.contains n ⟨1⟩ = false) ∧ (∀ n ∈ d.bundle ⟨5⟩, d.contains n ⟨1⟩ = false) ∧
        d.children ⟨1⟩ = [⟨2⟩, ⟨3⟩] ++ ⟨4⟩ :: [] ∧ d.children ⟨1⟩ = [⟨2⟩] ++ ⟨3⟩ :: [⟨4⟩]) ∧
      (d.insertBefore ⟨1⟩ ⟨2⟩ (some ⟨4⟩)).children ⟨1⟩ = [⟨3⟩, ⟨2⟩, ⟨4⟩] ∧
      (d.replaceChild ⟨1⟩ ⟨5⟩ ⟨3⟩).children ⟨1⟩ = [⟨2⟩, ⟨6⟩, ⟨7⟩, ⟨4⟩] ∧
      (d.replaceChild ⟨1⟩ ⟨5⟩ ⟨3⟩).children ⟨5⟩ = [] := by
  have hf : paragraphAndFragment.Forest := ((sound_empty.parse .html _).parse .html _).forest
  have hp : paragraphAndFragment.Has ⟨1⟩ := by decide +kernel
  have hx : paragraphAndFragment.Has ⟨2⟩ := by decide +kernel
  have hy : paragraphAndFragment.Has ⟨5⟩ := by decide +kernel
  have hinner : paragraphAndFragment.leaf? ⟨1⟩ = none := by decide +kernel
  have hone : ∀ n ∈ paragraphAndFragment.bundle ⟨2⟩, paragraphAndFragment.contains n ⟨1⟩ = false := by
    decide +kernel
  have hall : ∀ n ∈ paragraphAndFragment.bundle ⟨5⟩, paragraphAndFragment.contains n ⟨1⟩ = false := by
    decide +kernel
  have hrow : paragraphAndFragment.children ⟨1⟩ = [⟨2⟩, ⟨3⟩] ++ ⟨4⟩ :: [] := by decide +kernel
  have hinsert := ((mutators_rearrange hf hp hx hinner hone).2 _ _ _ hrow (by decide +kernel)).1
  have hreplace := ((mutators_rearrange hf hp hy hinner hall).2 [⟨2⟩] ⟨3⟩ [⟨4⟩] hrow (by decide +kernel)).2
  exact ⟨⟨hf, hp, hx, hy, hinner, hone, hall, hrow, hrow⟩, hinsert.row.trans (by decide +kernel),
    hreplace.row.trans (by decide +kernel), hreplace.emptied (by decide +kernel) (by decide)⟩

end LiveMarkup.Document
