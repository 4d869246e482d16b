import LiveMarkup.Proofs.Document.Standing
/-!
# Changing the content of an element

Taking away the content of an element and giving it one text changes no other list of children, and
leaves without parent what was in it (`rewritten_setText`).
-/

namespace LiveMarkup.Document

variable {d d' : Document} {n m : NodeId} {a : AttributeId}

/-- The content of an element has been changed, and nothing else. -/
structure Rewritten (d d' : Document) (n : NodeId) (content : List Plant) : Prop where
  sound : d'.Sound
  nodes : d.nodes.size ≤ d'.nodes.size
  attributes : d'.attributes.size = d.attributes.size
  bare : ∀ m, d.Has m → (d'.node m).bare = (d.node m).bare
  children : ∀ m, d.Has m → m ≠ n → d'.children m = d.children m
  parent? : ∀ m, d.Has m → d.parent? m = none → d'.parent? m = none
  attr : ∀ a, d'.attr a = d.attr a
  notices : d'.notices = d.notices
  row : d'.children n = content.map Plant.id
  stand : ∀ q ∈ content, d'.Stands q
  fresh : ∀ m ∈ Plant.idsAll content, ¬ d.Has m

namespace Rewritten

variable {content : List Plant}

theorem has (h : Rewritten d d' n content) (hm : d.Has m) : d'.Has m :=
  Nat.lt_of_lt_of_le hm h.nodes

theorem kind (h : Rewritten d d' n content) (hm : d.Has m) : d'.kind m = d.kind m := by
  have hb := congrArg Node.kind (h.bare m hm)
  exact hb

theorem attributesOf (h : Rewritten d d' n content) (hm : d.Has m) :
    (d'.node m).attributes = (d.node m).attributes := by
  have hb := congrArg Node.attributes (h.bare m hm)
  exact hb

theorem pairs (h : Rewritten d d' n content) (hm : d.Has m) :
    d'.attributePairs m = d.attributePairs m := by
  rw [attributePairs, h.attributesOf hm, attributePairs]
  exact List.map_congr_left fun a _ => by rw [h.attr a]

theorem unchanged (h : Rewritten d d' n content) (hm : d.Has m) (hmn : m ≠ n) :
    Unchanged d d' m := by
  have hb := congrArg Node.data (h.bare m hm)
  exact ⟨h.has, h.kind hm, hb, h.attributesOf hm, h.pairs hm, h.children m hm hmn⟩

end Rewritten

/-- Taking away some children, some of which may be gone already. -/
theorem foldl_detach (hs : d.Sound) {nodes : List NodeId}
    (hnodes : ∀ m ∈ nodes, d.parent? m = some n ∨ d.parent? m = none) :
    (nodes.foldl detach d).Sound ∧ Relinked d (nodes.foldl detach d) ∧
      (∀ m, m ≠ n → (nodes.foldl detach d).children m = d.children m) ∧
      (nodes.foldl detach d).children n = (d.children n).filter (· ∉ nodes) ∧
      (∀ m, d.parent? m = none → (nodes.foldl detach d).parent? m = none) ∧
      (nodes.foldl detach d).notices = d.notices := by
  induction nodes generalizing d with
  | nil =>
    refine ⟨hs, .refl d, fun _ _ => rfl, ?_, fun _ h => h, rfl⟩
    rw [filter_notMem_nil]
    rfl
  | cons c rest ih =>
    have hrelinked := relinked_detach d c
    have hparent := parent?_detach d c
    have hchildren := children_detach hs.forest c
    have hloose : ∀ m, d.parent? m = none → (d.detach c).parent? m = none := by
      intro m hm
      rw [hparent]
      split
      · rfl
      · exact hm
    obtain ⟨hsound, hrel, hrow, hself, hnone, hnotices⟩ := ih
      ⟨hs.forest.detach c, hs.owned.relinked hrelinked⟩ fun m hm => by
        rw [hparent]
        split
        · exact .inr rfl
        · exact hnodes m (List.mem_cons_of_mem _ hm)
    refine ⟨hsound, hrelinked.trans hrel, fun m hm => ?_, ?_, fun m hm => hnone m (hloose m hm), ?_⟩
    · rw [List.foldl_cons, hrow m hm, hchildren, hs.forest.filter_children]
      intro hp
      rcases hnodes c (List.mem_cons_self ..) with hc | hc <;> rw [hc] at hp <;> cases hp
      exact hm rfl
    · rw [List.foldl_cons, hself, hchildren, filter_notMem_cons]
    · rw [List.foldl_cons, hnotices, notices_detach]

theorem rewritten_setText (hs : d.Sound) (hn : d.Has n) (helement : d.isElement n = true)
    (text : String) :
    Rewritten d (d.setText n text) n (if text.isEmpty then [] else [.text d.next text]) := by
  have hleaf := leaf?_of_isElement helement
  have hs' : d.count.Sound :=
    ⟨hs.forest.congr (fun _ => rfl) (fun _ => rfl) fun _ _ => rfl,
      hs.owned.congr (fun _ => rfl) fun _ => rfl⟩
  have hchildren : ∀ m ∈ d.children n, d.count.parent? m = some n ∨ d.count.parent? m = none :=
    fun m hm => .inl (hs.forest.parent_of_mem hm)
  obtain ⟨hsound, hrel, hrow, hself, hloose, hnotices⟩ := foldl_detach hs' hchildren
  have hempty : ((d.children n).foldl detach d.count).children n = [] := by
    rw [hself, List.filter_eq_nil_iff]
    intro m hm
    simpa using hm
  have hclear : d.count.clear n = (d.children n).foldl detach d.count := rfl
  generalize hcleared : (d.children n).foldl detach d.count = cleared at *
  have hhas : ∀ m, d.Has m → cleared.Has m := fun m hm => hrel.has.2 hm
  have hnext : cleared.next = d.next := by
    rw [next, hrel.size]
    rfl
  rw [setText, hleaf]
  dsimp only
  rw [hclear]
  split
  · refine ⟨hsound, Nat.le_of_eq hrel.size.symm, by rw [hrel.attributes]; rfl, fun m _ => hrel.bare m,
      fun m _ hm => hrow m hm, fun m _ hm => hloose m hm, fun a => hrel.attr a, hnotices, hempty,
      fun q hq => ?_, fun m hm => ?_⟩
    · cases hq
    · rw [Plant.idsAll_nil] at hm
      cases hm
  · have hmade := made_create hsound .text text
    have hkind : (cleared.create .text text).2.kind cleared.next = .text := kind_create_next
    have hinner : cleared.leaf? n = none := by
      rw [hrel.leaf?]
      exact hleaf
    have hlinked := hmade.link (hhas n hn) hinner (by rw [isFragment, create_fst, hkind]; rfl)
    rw [link_eq_attach hmade.parent?] at hlinked
    obtain ⟨hsound', hext, hrel', hrow', -⟩ := hlinked
    rw [create_fst] at hmade hsound' hext hrel' hrow' ⊢
    rw [hnext] at hmade hsound' hkind hext hrel' hrow' ⊢
    generalize (cleared.create .text text).2.attach n d.next none = d' at *
    refine ⟨hsound', ?_, ?_, fun m hm => ?_, fun m hm hmn => ?_, fun m hm hp => ?_, fun a => ?_, ?_,
      ?_, fun q hq => ?_, fun m hm => ?_⟩
    · exact Nat.le_trans (Nat.le_of_eq hrel.size.symm) hext.nodes
    · rw [hrel'.attributes]
      exact congrArg Array.size hrel.attributes
    · rw [hext.bare m (hhas m hm), hrel.bare]
      rfl
    · rw [hext.children m (hhas m hm) (by simpa using hmn), hrow m hmn]
      rfl
    · rw [hext.parent? m (hhas m hm), hloose m hp]
    · rw [hrel'.attr]
      exact hrel.attr a
    · rw [hext.notices, hnotices]
      rfl
    · rw [hrow', hempty]
      rfl
    · rw [List.mem_singleton.1 hq]
      refine .text (hrel'.has.2 hmade.has) ((hrel'.kind _).trans hkind) ?_
      have hnode := node_create cleared .text text cleared.next
      rw [if_pos rfl, hnext] at hnode
      rw [hrel'.data, hnode]
      rfl
    · rw [Plant.idsAll_cons, Plant.idsAll_nil, Plant.ids, List.append_nil, List.mem_singleton] at hm
      rw [hm]
      exact not_has_next

end LiveMarkup.Document
