import LiveMarkup.Proofs.Document.Counting
import LiveMarkup.Proofs.Document.Shifting
import LiveMarkup.Proofs.Rendering.Ready
/-!
# Fragments that have been emptied

When a block is put in front of a placeholder, its nodes are taken out of the fragment that they were made in.
Nothing comes into such a fragment by the changes that a binding makes (`Document.Gentle`), so it stays empty
(`Document.Vacated`) until the block is taken out again.
-/

namespace LiveMarkup

theorem Block.nodup_fragments (b : Block) : b.fragments.Nodup := by
  cases b with
  | single n => exact .nil
  | group g => exact List.nodup_singleton _

namespace Document

variable {d d' d'' : Document} {n p : NodeId} {nodes fs fs' : List NodeId}

theorem mem_root_iff {b : Block} : n ∈ b.fragments ↔ b.root? = some n := by
  cases b with
  | single m => simp [Block.fragments, Block.root?]
  | group k => simp [Block.fragments, Block.root?, eq_comm]

/-- What a block is in is a fragment. -/
theorem Loose.fragment {b : Block} {qs : List Plant} {f : NodeId} (h : d.Loose b qs) (hf : f ∈ b.fragments) :
    d.Has f ∧ d.isFragment f = true := by
  cases b with
  | single m => cases hf
  | group g =>
    obtain rfl := List.mem_singleton.1 hf
    exact ⟨(h.group g rfl).1, (h.group g rfl).2.1⟩

/-- A step loses no node, makes none something else, and puts nothing into a fragment that is empty. -/
structure Gentle (d d' : Document) : Prop where
  has : ∀ n, d.Has n → d'.Has n
  kind : ∀ n, d.Has n → d'.kind n = d.kind n
  empty : ∀ f, d.Has f → d.isFragment f = true → d.children f = [] → d'.children f = []

theorem Gentle.isFragment (h : d.Gentle d') (hn : d.Has n) : d'.isFragment n = d.isFragment n := by
  rw [Document.isFragment, h.kind n hn, Document.isFragment]

theorem Gentle.refl (d : Document) : d.Gentle d :=
  ⟨fun _ h => h, fun _ _ => rfl, fun _ _ _ h => h⟩

theorem Gentle.trans (h : d.Gentle d') (h' : d'.Gentle d'') : d.Gentle d'' where
  has n hn := h'.has n (h.has n hn)
  kind n hn := (h'.kind n (h.has n hn)).trans (h.kind n hn)
  empty f hf hfragment hempty :=
    h'.empty f (h.has f hf) ((h.isFragment hf).trans hfragment) (h.empty f hf hfragment hempty)

theorem gentle_setData (d : Document) (n : NodeId) (data : String) : d.Gentle (d.setData n data) :=
  ⟨fun _ h => has_setData.2 h, fun _ _ => kind_setData, fun _ _ _ h => children_setData.trans h⟩

theorem gentle_of_inserted {front behind : List NodeId} (h : Inserted d d' p nodes front behind)
    (hp : d.children p ≠ []) : d.Gentle d' where
  has _ hm := h.relinked.has.2 hm
  kind m _ := h.relinked.kind m
  empty f _ _ hempty := by
    rw [h.children_of_ne f fun he => hp (he ▸ hempty), hempty]
    rfl

theorem gentle_removeChild (hf : d.Forest) (hp : d.parent? n = some p) : d.Gentle (d.removeChild p n) := by
  rw [removeChild_eq hp]
  refine ⟨fun m hm => (relinked_detach d n).has.2 hm, fun m _ => (relinked_detach d n).kind m,
    fun f _ _ hempty => ?_⟩
  rw [children_counted, children_detach hf, hempty]
  rfl

theorem gentle_release (custody : Custody) : d.Gentle (d.release custody) where
  has n hn := has_keepOnly.2 hn
  kind n _ := kind_keepOnly
  empty f hf _ hempty := by
    rw [release_eq, children_keepOnly hf, hempty]
    split <;> rfl

theorem Rewritten.gentle {content : List Plant} (h : Rewritten d d' n content)
    (hn : d.isFragment n = false) : d.Gentle d' where
  has _ hm := h.has hm
  kind _ hm := h.kind hm
  empty f hf hfragment hempty := by
    rw [h.children f hf fun he => ?_, hempty]
    rw [he, hn] at hfragment
    cases hfragment

theorem Reattributed.gentle {a : AttributeId} (h : Reattributed d d' n a) : d.Gentle d' where
  has _ hm := h.has.2 hm
  kind m _ := h.kind m
  empty f _ _ hempty := (h.children f).trans hempty

/-- Some fragments are told apart, and nothing is left in them. -/
structure Vacated (d : Document) (fs : List NodeId) : Prop where
  nodup : fs.Nodup
  empty : ∀ f ∈ fs, d.Has f ∧ d.isFragment f = true ∧ d.children f = []

theorem Vacated.nil : d.Vacated [] :=
  ⟨.nil, List.forall_mem_nil _⟩

theorem Vacated.gentle (h : d.Vacated fs) (hd : d.Gentle d') : d'.Vacated fs where
  nodup := h.nodup
  empty f hf := by
    obtain ⟨hhas, hfragment, hempty⟩ := h.empty f hf
    exact ⟨hd.has f hhas, (hd.isFragment hhas).trans hfragment, hd.empty f hhas hfragment hempty⟩

/-- Nothing comes into a fragment that nodes are not moved to. -/
theorem Vacated.shifts {targets : List NodeId} (h : d.Vacated fs) (hs : d.Shifts d' targets)
    (hd : d.Forest) (hd' : d'.Forest) (htargets : ∀ f ∈ fs, f ∉ targets) : d'.Vacated fs where
  nodup := h.nodup
  empty f hf := by
    obtain ⟨hhas, hfragment, hempty⟩ := h.empty f hf
    refine ⟨hs.relinked.has.2 hhas, ?_, List.eq_nil_iff_forall_not_mem.2 fun n hn => ?_⟩
    · rw [isFragment, hs.relinked.kind f]
      exact hfragment
    have hp := hd'.parent_of_mem hn
    rcases hs.parent? n with hsame | hnone | ⟨c, hc, hmoved⟩
    · have hmem := hd.mem_of_parent (hsame.symm.trans hp)
      rw [hempty] at hmem
      cases hmem
    · rw [hnone] at hp
      cases hp
    · rw [hmoved] at hp
      obtain rfl := Option.some.inj hp
      exact htargets c hf hc

theorem Vacated.append (h : d.Vacated fs) (h' : d.Vacated fs') (hapart : ∀ f ∈ fs, f ∉ fs') :
    d.Vacated (fs ++ fs') where
  nodup := List.nodup_append.2 ⟨h.nodup, h'.nodup, fun f hf _ hf' he => hapart f hf (he ▸ hf')⟩
  empty f hf := (List.mem_append.1 hf).elim (h.empty f) (h'.empty f)

theorem Vacated.perm (h : d.Vacated fs) (hperm : fs.Perm fs') : d.Vacated fs' :=
  ⟨hperm.nodup_iff.1 h.nodup, fun f hf => h.empty f (hperm.mem_iff.2 hf)⟩

theorem Vacated.sublist (h : d.Vacated fs) (hsub : fs'.Sublist fs) : d.Vacated fs' :=
  ⟨h.nodup.sublist hsub, fun f hf => h.empty f (hsub.subset hf)⟩

end Document

/-- A child binding holds the fragments of its entries. -/
theorem Binding.fragments_held (b : ChildBinding) :
    b.entries.flatMap Block.fragments ⊆ (Binding.child b).held := by
  intro f hf
  obtain ⟨block, hblock, hf⟩ := List.mem_flatMap.1 hf
  refine List.mem_append_right _ (List.mem_flatMap.2 ⟨block, hblock, ?_⟩)
  exact Document.mem_held_of_root (Document.mem_root_iff.1 hf)

/-- The fragments of the blocks that a binding has in place. -/
def Binding.placed : Binding → List NodeId
  | .child b => b.entries.flatMap Block.fragments
  | _ => []

theorem Binding.placed_held (b : Binding) : b.placed ⊆ b.held := by
  cases b with
  | child b => exact Binding.fragments_held b
  | _ => exact List.nil_subset _

namespace Exhibit

/-- The fragments of the blocks that some bindings have in place. -/
def placed (es : List (Binding × Spot)) : List NodeId :=
  es.flatMap fun e => e.1.placed

variable {es es' : List (Binding × Spot)} {e : Binding × Spot} {n : NodeId}

theorem placed_append (es es' : List (Binding × Spot)) : placed (es ++ es') = placed es ++ placed es' :=
  List.flatMap_append

theorem placed_cons (e : Binding × Spot) (es : List (Binding × Spot)) :
    placed (e :: es) = e.1.placed ++ placed es :=
  List.flatMap_cons

theorem placed_perm (h : es.Perm es') : (placed es).Perm (placed es') :=
  h.flatMap_right _

theorem placed_held {nodes : List NodeId} (h : ∀ e ∈ es, e.1.held ⊆ nodes) : placed es ⊆ nodes := by
  intro f hf
  obtain ⟨e, he, hf⟩ := List.mem_flatMap.1 hf
  exact h e he (e.1.placed_held hf)

end Exhibit

end LiveMarkup
