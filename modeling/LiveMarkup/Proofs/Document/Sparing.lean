import LiveMarkup.Proofs.Document.Counting
/-!
# What an operation spares, and what it counts

Putting nodes somewhere and taking them away leaves all other nodes where they are: among the children of
every node they stand in the order they had, and their parents are the same. That is so whether the operation
is carried out or refused, and either way it counts as one change at most. `Document.Sparing` says this of any
number of operations, so that a bound on the changes and the nodes concerned are carried along together.
-/

namespace LiveMarkup.Document

variable {d d' d'' : Document} {n m p c : NodeId} {nodes nodes' l : List NodeId} {k k' : Nat}

/-- Only some nodes may have been moved, and a limited number of changes has been counted. -/
structure Sparing (d d' : Document) (nodes : List NodeId) (most : Nat) : Prop where
  relinked : Relinked d d'
  children : ∀ q, (d'.children q).filter (· ∉ nodes) = (d.children q).filter (· ∉ nodes)
  parent? : ∀ m, m ∉ nodes → d'.parent? m = d.parent? m
  least : d.mutations ≤ d'.mutations
  atMost : d'.mutations ≤ d.mutations + most

namespace Sparing

theorem refl (d : Document) (nodes : List NodeId) (most : Nat) : d.Sparing d nodes most :=
  ⟨.refl d, fun _ => rfl, fun _ _ => rfl, Nat.le_refl _, Nat.le_add_right _ _⟩

theorem trans (h : d.Sparing d' nodes k) (h' : d'.Sparing d'' nodes k') : d.Sparing d'' nodes (k + k') where
  relinked := h.relinked.trans h'.relinked
  children q := (h'.children q).trans (h.children q)
  parent? m hm := (h'.parent? m hm).trans (h.parent? m hm)
  least := Nat.le_trans h.least h'.least
  atMost := by
    have hfirst := h.atMost
    have hsecond := h'.atMost
    omega

theorem mono (h : d.Sparing d' nodes k) (hsub : nodes ⊆ nodes') (hle : k ≤ k') : d.Sparing d' nodes' k' where
  relinked := h.relinked
  children q := filter_notMem_of_subset hsub (h.children q)
  parent? m hm := h.parent? m fun hmem => hm (hsub hmem)
  least := h.least
  atMost := by
    have hmost := h.atMost
    omega

theorem isFragment (h : d.Sparing d' nodes k) (n : NodeId) : d'.isFragment n = d.isFragment n :=
  h.relinked.isFragment n

end Sparing

/-! ### Lists of children -/

theorem filter_ne_of_mem (hn : n ∈ nodes) (l : List NodeId) :
    (l.filter (· != n)).filter (· ∉ nodes) = l.filter (· ∉ nodes) := by
  rw [List.filter_filter]
  refine List.filter_congr fun m _ => ?_
  by_cases hm : m = n
  · simp [hm, hn]
  · simp [hm]

theorem filter_placeBefore_of_mem (hn : n ∈ nodes) (r : NodeId) (l : List NodeId) :
    (placeBefore r n l).filter (· ∉ nodes) = l.filter (· ∉ nodes) := by
  induction l with
  | nil => simp [placeBefore, hn]
  | cons m rest ih =>
    rw [placeBefore]
    split
    · rw [List.filter_cons_of_neg (by simpa using hn)]
    · rw [List.filter_cons, List.filter_cons, ih]

theorem filter_place_of_mem (hn : n ∈ nodes) (reference : Option NodeId) (l : List NodeId) :
    (place reference n l).filter (· ∉ nodes) = l.filter (· ∉ nodes) := by
  cases reference with
  | none => simp [place, hn]
  | some r => exact filter_placeBefore_of_mem hn r l

theorem filter_substitute_of_mem (hc : c ∈ nodes) (hn : n ∈ nodes) (l : List NodeId) :
    (substitute c n l).filter (· ∉ nodes) = l.filter (· ∉ nodes) := by
  unfold substitute
  induction l with
  | nil => rfl
  | cons m rest ih =>
    rw [List.map_cons, List.filter_cons, List.filter_cons, ih]
    by_cases hm : m = c
    · simp [hm, hn, hc]
    · simp [hm]

/-! ### Operations -/

theorem sparing_count (d : Document) (nodes : List NodeId) : d.Sparing d.count nodes 1 :=
  ⟨relinked_counted d 1, fun _ => rfl, fun _ _ => rfl, Nat.le_succ _, Nat.le_refl _⟩

theorem sparing_note (d : Document) (notice : Notice) (nodes : List NodeId) (most : Nat) :
    d.Sparing (d.note notice) nodes most :=
  ⟨⟨rfl, fun _ => rfl, rfl, rfl, rfl⟩, fun _ => rfl, fun _ _ => rfl, Nat.le_refl _, Nat.le_add_right _ _⟩

/-- The links of a node are changed. -/
theorem sparing_update (d : Document) (n : NodeId) (f : Node → Node) (hbare : ∀ r, (f r).bare = r.bare)
    (hchildren : ∀ r, ((f r).children).filter (· ∉ nodes) = r.children.filter (· ∉ nodes))
    (hparent : n ∈ nodes ∨ ∀ r, (f r).parent = r.parent) : d.Sparing (d.update n f) nodes 0 where
  relinked := relinked_update d n f hbare
  children q := by
    rw [Document.children, node_update]
    split
    · exact hchildren _
    · rfl
  parent? m hm := by
    rw [Document.parent?, node_update]
    split
    · rename_i hself
      rcases hparent with hn | hsame
      · exact absurd (hself.1 ▸ hn) hm
      · exact hsame _
    · rfl
  least := Nat.le_refl _
  atMost := Nat.le_refl _

theorem sparing_setChildren (d : Document) (p : NodeId) (f : List NodeId → List NodeId)
    (hf : ∀ l, (f l).filter (· ∉ nodes) = l.filter (· ∉ nodes)) :
    d.Sparing (d.update p fun r => { r with children := f r.children }) nodes 0 :=
  sparing_update d p _ (fun _ => rfl) (fun r => hf r.children) (.inr fun _ => rfl)

theorem sparing_setParent (hn : n ∈ nodes) (d : Document) (parent : Option NodeId) :
    d.Sparing (d.update n fun r => { r with parent := parent }) nodes 0 :=
  sparing_update d n (fun r => { r with parent := parent }) (fun _ => rfl) (fun _ => rfl) (.inl hn)

theorem sparing_detach (hn : n ∈ nodes) (d : Document) : d.Sparing (d.detach n) nodes 0 := by
  unfold detach
  split
  · exact .refl d nodes 0
  · exact (sparing_setChildren d _ _ (filter_ne_of_mem hn)).trans (sparing_setParent hn _ none)

/-- A node gets a place among the children of `p`. -/
theorem sparing_adopt (hn : n ∈ nodes) (d : Document) (p : NodeId) (f : List NodeId → List NodeId)
    (hf : ∀ l, (f l).filter (· ∉ nodes) = l.filter (· ∉ nodes)) :
    d.Sparing ((d.update p fun r => { r with children := f r.children }).update n
      fun r => { r with parent := some p }) nodes 0 :=
  (sparing_setChildren d p f hf).trans (sparing_setParent hn _ (some p))

theorem sparing_attach (hn : n ∈ nodes) (d : Document) (p : NodeId) (reference : Option NodeId) :
    d.Sparing (d.attach p n reference) nodes 0 :=
  (sparing_detach hn d).trans (sparing_adopt hn _ p _ (filter_place_of_mem hn reference))

theorem sparing_insertNode (hn : n ∈ nodes) (d : Document) (p : NodeId) (reference : Option NodeId) :
    d.Sparing (d.insertNode p n reference) nodes 0 := by
  unfold insertNode
  split
  · exact sparing_note ..
  · split
    · exact sparing_note ..
    · dsimp only
      generalize (if reference = some n then d.nextSibling? n else reference) = reference
      cases reference with
      | none => exact sparing_attach hn ..
      | some r =>
        dsimp only
        split
        · exact sparing_attach hn ..
        · exact sparing_note ..

theorem sparing_insertBefore (hn : n ∈ nodes) (hsolid : d.isFragment n = false) (p : NodeId)
    (reference : Option NodeId) : d.Sparing (d.insertBefore p n reference) nodes 1 := by
  have hcount : d.count.isFragment n = false := hsolid
  rw [insertBefore, hcount, if_neg Bool.false_ne_true]
  exact (sparing_count d nodes).trans (sparing_insertNode hn ..)

theorem sparing_removeChild (hc : c ∈ nodes) (d : Document) (p : NodeId) :
    d.Sparing (d.removeChild p c) nodes 1 := by
  unfold removeChild
  split
  · exact (sparing_count d nodes).trans (sparing_detach hc _)
  · exact sparing_note ..

theorem sparing_replaceChild (hn : n ∈ nodes) (hc : c ∈ nodes) (hsolid : d.isFragment n = false)
    (p : NodeId) : d.Sparing (d.replaceChild p n c) nodes 1 := by
  have hcount : d.count.isFragment n = false := hsolid
  unfold replaceChild
  split
  · split
    · exact .refl d nodes 1
    · refine (sparing_count d nodes).trans (?_ : Sparing d.count _ nodes 0)
      dsimp only
      rw [hcount, if_neg Bool.false_ne_true]
      split
      · exact sparing_note ..
      · have hplaced := (sparing_detach hn d.count).trans
          (sparing_adopt hn _ p _ (filter_substitute_of_mem hc hn))
        exact hplaced.trans (sparing_setParent hc _ none)
  · exact sparing_note ..

/-! ### What is counted for certain -/

theorem mutations_removeChild (hc : d.parent? c = some p) :
    (d.removeChild p c).mutations = d.mutations + 1 := by
  rw [removeChild, if_pos hc, mutations_detach]
  rfl

theorem mutations_replaceChild (hc : d.parent? c = some p) (hne : n ≠ c) :
    (d.replaceChild p n c).mutations = d.mutations + 1 := by
  rw [replaceChild, if_pos hc, if_neg hne]
  dsimp only
  split
  · rw [mutations_detach, mutations_insertEach]
    rfl
  · split
    · rfl
    · show (d.count.detach n).mutations = d.mutations + 1
      rw [mutations_detach]
      rfl

end LiveMarkup.Document
