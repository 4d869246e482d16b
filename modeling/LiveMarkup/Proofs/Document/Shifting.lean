import LiveMarkup.Proofs.Document.Passage
/-!
# What moving nodes leaves as it is

Moving nodes changes parents and rows of children and nothing else, wherever the nodes come from and even if
a move is refused; then a notice is left, and none is ever taken back. A node that has another parent than
before is the child of one of the nodes that nodes are moved to (`Document.Shifts`). A reconciliation consists
of such moves, so the same is true of it: nodes come to the container and the fragments of the entries
(`Document.shifts_reconcile`). Nothing else is asked of the document or of the nodes.
-/

namespace LiveMarkup

namespace Document

variable {d d' d'' : Document} {n p c : NodeId} {targets : List NodeId} {nodes : List NodeId}

/-- Nodes have been moved to some others or taken away, and notices may have been left. -/
structure Shifts (d d' : Document) (targets : List NodeId) : Prop where
  relinked : Relinked d d'
  notices : d.notices <:+ d'.notices
  parent? : ∀ n, d'.parent? n = d.parent? n ∨ d'.parent? n = none ∨
    ∃ c ∈ targets, d'.parent? n = some c

namespace Shifts

theorem refl (d : Document) (targets : List NodeId) : d.Shifts d targets :=
  ⟨.refl d, List.suffix_refl _, fun _ => .inl rfl⟩

theorem trans (h : d.Shifts d' targets) (h' : d'.Shifts d'' targets) : d.Shifts d'' targets where
  relinked := h.relinked.trans h'.relinked
  notices := h.notices.trans h'.notices
  parent? n := by
    rcases h'.parent? n with hsame | hmoved
    · rw [hsame]
      exact h.parent? n
    · exact .inr hmoved

/-- Whatever each step of a fold does, so does the fold. -/
theorem foldl {α : Type} {step : Document → α → Document}
    (h : ∀ (d : Document) a, d.Shifts (step d a) targets) (as : List α) (d : Document) :
    d.Shifts (as.foldl step d) targets := by
  induction as generalizing d with
  | nil => exact refl d targets
  | cons a rest ih => exact (h d a).trans (ih _)

/-- What comes to be above a node has been above it, or above one that nodes are moved to. -/
theorem above (h : d.Shifts d' targets) {a : NodeId} (ha : d'.Above n a) :
    d.Above n a ∨ ∃ c ∈ targets, d.Above c a := by
  induction ha with
  | self => exact .inl .self
  | @up m q _ hq ih =>
    rcases h.parent? m with hsame | hnone | ⟨c, hc, hmoved⟩
    · rw [hsame] at hq
      exact ih.imp (.up · hq) fun ⟨c, hc, ha⟩ => ⟨c, hc, .up ha hq⟩
    · rw [hnone] at hq
      cases hq
    · obtain rfl := Option.some.inj (hmoved.symm.trans hq)
      exact .inr ⟨c, hc, .self⟩

end Shifts

/-! ### Moves -/

theorem shifts_count (d : Document) (targets : List NodeId) : d.Shifts d.count targets :=
  ⟨⟨rfl, fun _ => rfl, rfl, rfl, rfl⟩, List.suffix_refl _, fun _ => .inl rfl⟩

theorem shifts_note (d : Document) (notice : Notice) (targets : List NodeId) :
    d.Shifts (d.note notice) targets :=
  ⟨⟨rfl, fun _ => rfl, rfl, rfl, rfl⟩, List.suffix_cons notice _, fun _ => .inl rfl⟩

/-- Only the links of a node are changed. -/
theorem shifts_update (d : Document) (n : NodeId) (f : Node → Node) (hf : ∀ r, (f r).bare = r.bare)
    (hparent : ∀ r, (f r).parent = r.parent ∨ (f r).parent = none ∨ ∃ c ∈ targets, (f r).parent = some c) :
    d.Shifts (d.update n f) targets := by
  refine ⟨relinked_update d n f hf, List.suffix_refl _, fun m => ?_⟩
  rw [Document.parent?, node_update]
  split
  · exact hparent _
  · exact .inl rfl

theorem shifts_detach (d : Document) (n : NodeId) (targets : List NodeId) :
    d.Shifts (d.detach n) targets := by
  refine ⟨relinked_detach d n, ?_, fun m => ?_⟩
  · unfold detach
    split <;> exact List.suffix_refl _
  · rw [parent?_detach]
    split
    · exact .inr (.inl rfl)
    · exact .inl rfl

/-- A node gets `p` as its parent. -/
theorem shifts_adopt (hp : p ∈ targets) (d : Document) (n : NodeId) (f : List NodeId → List NodeId) :
    d.Shifts ((d.update p fun r => { r with children := f r.children }).update n
      fun r => { r with parent := some p }) targets := by
  have hrow : d.Shifts (d.update p fun r => { r with children := f r.children }) targets :=
    shifts_update d p _ (fun _ => rfl) fun _ => .inl rfl
  exact hrow.trans (shifts_update _ n (fun r => { r with parent := some p }) (fun _ => rfl)
    fun _ => .inr (.inr ⟨p, hp, rfl⟩))

theorem shifts_attach (hp : p ∈ targets) (d : Document) (n : NodeId) (reference : Option NodeId) :
    d.Shifts (d.attach p n reference) targets :=
  (shifts_detach d n targets).trans (shifts_adopt hp (d.detach n) n _)

theorem shifts_insertNode (hp : p ∈ targets) (d : Document) (n : NodeId) (reference : Option NodeId) :
    d.Shifts (d.insertNode p n reference) targets := by
  unfold insertNode
  split
  · exact shifts_note ..
  · split
    · exact shifts_note ..
    · dsimp only
      generalize (if reference = some n then d.nextSibling? n else reference) = reference
      cases reference with
      | none => exact shifts_attach hp ..
      | some r =>
        dsimp only
        split
        · exact shifts_attach hp ..
        · exact shifts_note ..

theorem shifts_insertEach (hp : p ∈ targets) (d : Document) (nodes : List NodeId)
    (reference : Option NodeId) : d.Shifts (d.insertEach p nodes reference) targets :=
  .foldl (fun d n => shifts_insertNode hp d n reference) nodes d

theorem shifts_insertBefore (hp : p ∈ targets) (d : Document) (n : NodeId) (reference : Option NodeId) :
    d.Shifts (d.insertBefore p n reference) targets := by
  refine (shifts_count d targets).trans ?_
  show Shifts d.count (if _ then _ else _) targets
  split
  · exact shifts_insertEach hp ..
  · exact shifts_insertNode hp ..

theorem shifts_removeChild (d : Document) (p c : NodeId) (targets : List NodeId) :
    d.Shifts (d.removeChild p c) targets := by
  unfold removeChild
  split
  · exact (shifts_count d targets).trans (shifts_detach ..)
  · exact shifts_note ..

theorem shifts_replaceChild (hp : p ∈ targets) (d : Document) (n c : NodeId) :
    d.Shifts (d.replaceChild p n c) targets := by
  unfold replaceChild
  split
  · split
    · exact .refl d targets
    · refine (shifts_count d targets).trans ?_
      dsimp only
      split
      · exact (shifts_insertEach hp ..).trans (shifts_detach ..)
      · split
        · exact shifts_note ..
        · refine ((shifts_detach d.count n targets).trans (shifts_adopt hp _ n (substitute c n))).trans ?_
          exact shifts_update _ c _ (fun _ => rfl) fun _ => .inr (.inl rfl)
  · exact shifts_note ..

theorem shifts_clear (d : Document) (n : NodeId) (targets : List NodeId) :
    d.Shifts (d.clear n) targets :=
  .foldl (shifts_detach · · targets) _ d

/-! ### Blocks -/

theorem shifts_collectTail {g : Group} (hg : g.fragment ∈ targets) (d : Document) :
    d.Shifts (d.collectTail g) targets := by
  unfold collectTail
  split
  · exact .refl d targets
  · split
    · exact shifts_note ..
    · split
      · exact .refl d targets
      · split
        · exact .foldl (fun d n => shifts_insertBefore hg d n none) _ d
        · exact .refl d targets

theorem shifts_collect {g : Group} (hg : g.fragment ∈ targets) (d : Document) :
    d.Shifts (d.collect g) targets := by
  unfold collect
  split
  · exact .refl d targets
  · exact .foldl (fun d n => shifts_insertBefore hg d n _) _ d

theorem shifts_access {block : Block} (hblock : block.fragments ⊆ targets) (d : Document)
    (access : Access) : d.Shifts (d.access block access).2 targets := by
  unfold Document.access
  split
  · exact .refl d targets
  · rename_i g
    have hg : g.fragment ∈ targets := hblock (List.mem_singleton_self _)
    split
    · exact .refl d targets
    · exact .refl d targets
    · exact shifts_collect hg d
    · exact shifts_collectTail hg d

/-- A block is put somewhere. -/
theorem shifts_insert (d : Document) (p : NodeId) (block : Block) (reference : Option NodeId) :
    d.Shifts ((d.access block .insert).2.insertBefore p (d.access block .insert).1 reference)
      (p :: block.fragments) :=
  (shifts_access (List.subset_cons_self ..) d .insert).trans
    (shifts_insertBefore (List.mem_cons_self ..) _ _ reference)

end Document

/-! ### Reconciling -/

/-- Asking for a node of some entries moves nodes to some others at most, as putting them into the container
does. -/
structure Site.Shifting {E : Type} (site : Site E) (entries : E → Prop) (targets : List NodeId) : Prop where
  container : site.container ∈ targets
  find : ∀ e, entries e → ∀ a (d : Document), d.Shifts (site.find e a d).2 targets

/-- Moving nodes to some others is what a reconciliation does. -/
theorem Site.Shifting.respects {E : Type} {site : Site E} {entries : E → Prop} {targets : List NodeId}
    (h : site.Shifting entries targets) : site.Respects entries fun d d' => d.Shifts d' targets where
  refl d := .refl d targets
  trans h h' := h.trans h'
  find := h.find
  insert := Document.shifts_insertBefore h.container
  remove d c := Document.shifts_removeChild d _ c targets
  replace := Document.shifts_replaceChild h.container

theorem Document.shifts_reconcile {E : Type} [DecidableEq E] (d : Document) {site : Site E}
    {entries : E → Prop} {targets : List NodeId} (hsite : site.Shifting entries targets) {old new : List E}
    (hold : ∀ e ∈ old, entries e) (hnew : ∀ e ∈ new, entries e) :
    d.Shifts (d.reconcile site old new).document targets :=
  respects_reconcile hsite.respects d hold hnew

end LiveMarkup
