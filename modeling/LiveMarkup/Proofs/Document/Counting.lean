import LiveMarkup.Document.Attributes
import LiveMarkup.Proofs.Document.Moves
import LiveMarkup.Rendering.Lifetime
/-!
# How often a document is changed

Each operation counts as one change, however many nodes it moves, and as none if it is refused. Letting go
of what is not held does not count.
-/

namespace LiveMarkup.Document

variable {d : Document} {p n : NodeId} {a : AttributeId}

theorem mutations_insertNode (reference : Option NodeId) :
    (d.insertNode p n reference).mutations = d.mutations := by
  unfold insertNode
  split
  · rfl
  · split
    · rfl
    · dsimp only
      split
      · exact mutations_attach none
      · split
        · exact mutations_attach _
        · rfl

theorem mutations_insertEach (nodes : List NodeId) (reference : Option NodeId) :
    (d.insertEach p nodes reference).mutations = d.mutations := by
  unfold insertEach
  induction nodes generalizing d with
  | nil => rfl
  | cons n nodes ih =>
    rw [List.foldl_cons, ih]
    exact mutations_insertNode reference

theorem mutations_insertBefore (reference : Option NodeId) :
    (d.insertBefore p n reference).mutations = d.mutations + 1 := by
  unfold insertBefore
  dsimp only
  split
  · exact mutations_insertEach _ reference
  · exact mutations_insertNode reference

theorem mutations_removeChild_le : (d.removeChild p n).mutations ≤ d.mutations + 1 := by
  unfold removeChild
  split
  · rw [mutations_detach]
    exact Nat.le_refl _
  · exact Nat.le_succ _

theorem mutations_setData (data : String) : (d.setData n data).mutations = d.mutations + 1 := rfl

theorem mutations_clear : (d.clear n).mutations = d.mutations := by
  rw [clear]
  generalize d.children n = nodes
  induction nodes generalizing d with
  | nil => rfl
  | cons m nodes ih => rw [List.foldl_cons, ih, mutations_detach]

theorem mutations_setText (text : String) : (d.setText n text).mutations = d.mutations + 1 := by
  have hcleared : (d.count.clear n).mutations = d.mutations + 1 := mutations_clear
  unfold setText
  split
  · rfl
  · dsimp only
    split
    · exact hcleared
    · rw [mutations_attach]
      exact hcleared

theorem mutations_setAttributeValue (value : String) :
    (d.setAttributeValue a value).mutations = d.mutations + 1 := rfl

theorem mutations_putAttribute_le : (d.putAttribute n a).mutations ≤ d.mutations + 1 := by
  unfold putAttribute
  split
  · split
    · rw [placeAttribute]
      split <;> exact Nat.le_refl _
    · split <;> exact Nat.le_succ _
  · exact Nat.le_succ _

theorem mutations_takeAttribute_le : (d.takeAttribute n a).mutations ≤ d.mutations + 1 := by
  unfold takeAttribute
  split
  · exact Nat.le_refl _
  · exact Nat.le_succ _

@[simp] theorem mutations_release (custody : Custody) :
    (d.release custody).mutations = d.mutations := rfl

end LiveMarkup.Document
