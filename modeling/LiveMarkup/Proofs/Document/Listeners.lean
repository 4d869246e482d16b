import LiveMarkup.Proofs.Document.Attributes
/-!
# The listeners of a node

A listener is on a node once at most for a type of event, behind those that have been added before it, and adding
or taking away one leaves the others in their order and those for other types and of other nodes alone. When an
event is dispatched, what is called are the listeners for its type in this order, so that all of this can be said
of `Document.listenersFor`.
-/

namespace LiveMarkup.Document

variable {d d' : Document} {n m : NodeId} {type type' : String} {listener : ListenerId}

theorem mem_listenersFor : listener ∈ d.listenersFor n type ↔ (type, listener) ∈ (d.node n).listeners := by
  rw [listenersFor, List.mem_map]
  constructor
  · rintro ⟨⟨t, l⟩, hmem, rfl⟩
    obtain ⟨hmem, ht⟩ := List.mem_filter.1 hmem
    exact beq_iff_eq.1 ht ▸ hmem
  · exact fun hmem => ⟨_, List.mem_filter.2 ⟨hmem, beq_self_eq_true type⟩, rfl⟩

theorem listenersFor_update (hn : d.Has n) (f : List (String × ListenerId) → List (String × ListenerId)) :
    (d.count.update n fun r => { r with listeners := f r.listeners }).listenersFor n type =
      ((f (d.node n).listeners).filter (·.1 == type)).map (·.2) := by
  rw [listenersFor, node_update_self d.count n _ hn]
  rfl

/-- Listeners elsewhere or for another type stay as they are. -/
theorem listenersFor_update_of_ne (f : List (String × ListenerId) → List (String × ListenerId))
    (h : m = n → ∀ l, (f l).filter (·.1 == type') = l.filter (·.1 == type')) :
    (d.count.update n fun r => { r with listeners := f r.listeners }).listenersFor m type' =
      d.listenersFor m type' := by
  rw [listenersFor, node_update]
  split_ifs with hm
  · rw [h hm.1]
    rfl
  · rfl

theorem listenersFor_removeListener :
    (d.removeListener n type listener).listenersFor n type = (d.listenersFor n type).erase listener := by
  have herase : ∀ l : List (String × ListenerId),
      ((l.erase (type, listener)).filter (·.1 == type)).map (·.2) =
        ((l.filter (·.1 == type)).map (·.2)).erase listener := by
    intro l
    induction l with
    | nil => rfl
    | cons x rest ih =>
      obtain ⟨t, k⟩ := x
      by_cases ht : t = type <;> by_cases hk : k = listener <;> simp_all
  by_cases hmem : (type, listener) ∈ (d.node n).listeners
  · have hn : d.Has n := by
      by_contra hn
      rw [node_of_not_has hn] at hmem
      cases hmem
    rw [removeListener, if_pos (List.contains_iff_mem.2 hmem)]
    exact (listenersFor_update hn (·.erase (type, listener))).trans (herase _)
  · rw [removeListener, if_neg (by simpa using hmem), List.erase_of_not_mem fun h => hmem (mem_listenersFor.1 h)]

theorem listenersFor_removeListener_of_ne (h : m ≠ n ∨ type' ≠ type) :
    (d.removeListener n type listener).listenersFor m type' = d.listenersFor m type' := by
  unfold removeListener
  split_ifs
  · refine listenersFor_update_of_ne (·.erase (type, listener)) fun hm l => ?_
    have ht : type ≠ type' := (h.resolve_left fun hne => hne hm).symm
    rw [← List.erase_filter, List.erase_of_not_mem]
    simp [ht]
  · rfl

theorem listenersFor_addListener (hn : d.Has n) (h : listener ∉ d.listenersFor n type) :
    (d.addListener n type listener).listenersFor n type = d.listenersFor n type ++ [listener] := by
  rw [mem_listenersFor] at h
  rw [addListener, if_neg (by simpa using h)]
  refine (listenersFor_update hn (· ++ [(type, listener)])).trans ?_
  simp [listenersFor]

theorem listenersFor_addListener_of_ne (h : m ≠ n ∨ type' ≠ type) :
    (d.addListener n type listener).listenersFor m type' = d.listenersFor m type' := by
  unfold addListener
  split_ifs
  · rfl
  · refine listenersFor_update_of_ne (· ++ [(type, listener)]) fun hm l => ?_
    have ht : type ≠ type' := (h.resolve_left fun hne => hne hm).symm
    simp [ht]

/-- Only which of some listeners a node has for a type of event may be others. -/
structure Relistened (d d' : Document) (n : NodeId) (type : String) (mine : List ListenerId) : Prop where
  foreign : (d'.listenersFor n type).filter (· ∉ mine) = (d.listenersFor n type).filter (· ∉ mine)
  elsewhere : ∀ m type', m ≠ n ∨ type' ≠ type → d'.listenersFor m type' = d.listenersFor m type'

/-- A change that neither adds nor takes away one of some listeners. -/
structure LeavesListeners (d d' : Document) (n : NodeId) (type : String) (mine : List ListenerId) : Prop where
  has : d.Has n → d'.Has n
  own : (d'.listenersFor n type).filter (· ∈ mine) = (d.listenersFor n type).filter (· ∈ mine)

theorem has_removeListener : (d.removeListener n type listener).Has m ↔ d.Has m := by
  unfold removeListener
  split_ifs
  · exact has_update _
  · exact Iff.rfl

theorem has_addListener : (d.addListener n type listener).Has m ↔ d.Has m := by
  unfold addListener
  split_ifs
  · exact Iff.rfl
  · exact has_update _

end LiveMarkup.Document
