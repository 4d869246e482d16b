import LiveMarkup.Proofs.Document.Contents
import LiveMarkup.Proofs.Document.Copies
/-!
# Editing keeps the forest

Whatever an operation is called with, it leaves a sound document behind: it either does what it is asked
to do, on nodes for which this is possible, or refuses. What a call has to know beforehand is whether a
node would come to be inside itself, and asking for the nodes above another one tells exactly that
(`contains_iff`), since no way up is longer than there are nodes. So every document that is made by some
calls one after another is a forest (`edited_forest`).
-/

namespace LiveMarkup.Document

open Markup (Namespace)

variable {d : Document} {n m p c : NodeId} {nodes : List NodeId}

/-! ### The nodes above a node -/

theorem nodup_climb (hf : d.Forest) (fuel : Nat) (n : NodeId) : (d.climb fuel n).Nodup := by
  induction fuel generalizing n with
  | zero => exact List.nodup_nil
  | succ fuel ih =>
    rw [climb]
    cases hp : d.parent? n with
    | none => exact List.nodup_singleton n
    | some p => exact List.nodup_cons.2 ⟨fun hn => hf.acyclic hp (above_of_mem_climb hn), ih p⟩

/-- Climbing stops early only when all nodes above have been reached. -/
theorem length_climb_or_mem (fuel : Nat) (n : NodeId) :
    (d.climb fuel n).length = fuel ∨ ∀ a, d.Above n a → a ∈ d.climb fuel n := by
  induction fuel generalizing n with
  | zero => exact .inl rfl
  | succ fuel ih =>
    rw [climb]
    cases hp : d.parent? n with
    | none =>
      right
      intro a ha
      rw [ha.eq_of_root hp]
      exact List.mem_cons_self ..
    | some p =>
      apply (ih p).imp
      · intro hlen
        rw [List.length_cons, hlen]
      · intro hall a ha
        rcases ha.eq_or_of_parent with rfl | ⟨q, hq, ha⟩
        · exact List.mem_cons_self ..
        · rw [hp] at hq
          cases hq
          exact List.mem_cons_of_mem n (hall a ha)

/-- A node contains itself and what is below it. -/
theorem contains_iff (hf : d.Forest) (hn : d.Has n) : d.contains m n = true ↔ d.Above n m := by
  rw [contains, List.contains_iff_mem]
  constructor
  · exact above_of_mem_climb
  · intro ha
    rcases length_climb_or_mem (d := d) (d.nodes.size + 1) n with hlen | hall
    · have hle : (d.climb (d.nodes.size + 1) n).length ≤ d.nodes.size :=
        length_le_size (nodup_climb hf _ n) fun a ha => (above_of_mem_climb ha).has hf hn
      omega
    · exact hall m ha

/-! ### Each operation -/

namespace Sound

theorem count (hs : d.Sound) : d.count.Sound :=
  ⟨hs.forest.congr (fun _ => rfl) (fun _ => rfl) fun _ _ => rfl, hs.owned.congr (fun _ => rfl) fun _ => rfl⟩

theorem note (hs : d.Sound) (notice : Notice) : (d.note notice).Sound :=
  ⟨hs.forest.congr (fun _ => rfl) (fun _ => rfl) fun _ _ => rfl, hs.owned.congr (fun _ => rfl) fun _ => rfl⟩

theorem detach (hs : d.Sound) (n : NodeId) : (d.detach n).Sound :=
  ⟨hs.forest.detach n, hs.owned.relinked (relinked_detach d n)⟩

theorem attach (hs : d.Sound) (ha : d.Adoptable p n) (reference : Option NodeId) :
    (d.attach p n reference).Sound :=
  ⟨hs.forest.attach ha reference, hs.owned.relinked (relinked_attach d p n reference)⟩

end Sound

theorem relinked_note (d : Document) (notice : Notice) : Relinked d (d.note notice) :=
  ⟨rfl, fun _ => rfl, rfl, rfl, rfl⟩

/-- What is inserted may be inserted, unless it is refused. -/
theorem insertNode_cases (hf : d.Forest) (hp : d.Has p) (hn : d.Has n)
    (hsolid : d.isFragment n = false) (reference : Option NodeId) :
    (∃ notice, d.insertNode p n reference = d.note notice) ∨
      d.Adoptable p n ∧ ∃ reference', d.insertNode p n reference = d.attach p n reference' := by
  unfold insertNode
  cases hleaf : d.leaf? p with
  | some leaf => exact .inl ⟨_, rfl⟩
  | none =>
    dsimp only
    by_cases hc : d.contains n p = true
    · rw [if_pos hc]
      exact .inl ⟨_, rfl⟩
    · rw [if_neg hc]
      have ha : d.Adoptable p n := ⟨hp, hn, hleaf, hsolid, fun ha => hc ((contains_iff hf hp).2 ha)⟩
      generalize (if reference = some n then d.nextSibling? n else reference) = target
      cases target with
      | none => exact .inr ⟨ha, none, rfl⟩
      | some r =>
        dsimp only
        split_ifs
        · exact .inr ⟨ha, some r, rfl⟩
        · exact .inl ⟨_, rfl⟩

theorem insertNode_spec (hs : d.Sound) (hp : d.Has p) (hn : d.Has n) (hsolid : d.isFragment n = false)
    (reference : Option NodeId) :
    (d.insertNode p n reference).Sound ∧ Relinked d (d.insertNode p n reference) := by
  rcases insertNode_cases hs.forest hp hn hsolid reference with ⟨notice, h⟩ | ⟨ha, reference', h⟩
  · rw [h]
    exact ⟨hs.note notice, relinked_note d notice⟩
  · rw [h]
    exact ⟨hs.attach ha reference', relinked_attach d p n reference'⟩

theorem clear_spec (hs : d.Sound) (n : NodeId) : (d.clear n).Sound ∧ Relinked d (d.clear n) := by
  have hchildren : ∀ m ∈ d.children n, d.parent? m = some n ∨ d.parent? m = none :=
    fun m hm => .inl (hs.forest.parent_of_mem hm)
  obtain ⟨hsound, hrelinked, -⟩ := foldl_detach hs hchildren
  exact ⟨hsound, hrelinked⟩

namespace Sound

theorem insertEach (hs : d.Sound) (hp : d.Has p) (hnodes : ∀ n ∈ nodes, d.Has n ∧ d.isFragment n = false)
    (reference : Option NodeId) : (d.insertEach p nodes reference).Sound := by
  induction nodes generalizing d with
  | nil => exact hs
  | cons n rest ih =>
    obtain ⟨⟨hn, hsolid⟩, hrest⟩ := List.forall_mem_cons.1 hnodes
    obtain ⟨hone, hrelinked⟩ := insertNode_spec hs hp hn hsolid reference
    apply ih hone (hrelinked.has.2 hp)
    intro m hm
    exact ⟨hrelinked.has.2 (hrest m hm).1, (hrelinked.isFragment m).trans (hrest m hm).2⟩

theorem insertBefore (hs : d.Sound) (hp : d.Has p) (hn : d.Has n) (reference : Option NodeId) :
    (d.insertBefore p n reference).Sound := by
  unfold Document.insertBefore
  dsimp only
  split_ifs with hfragment
  · apply hs.count.insertEach hp
    intro m hm
    have hparent := hs.forest.parent_of_mem hm
    exact ⟨has_of_parent? hparent, hs.forest.solid hparent⟩
  · exact (insertNode_spec hs.count hp hn (by simpa using hfragment) reference).1

theorem removeChild (hs : d.Sound) (p c : NodeId) : (d.removeChild p c).Sound := by
  unfold Document.removeChild
  split_ifs
  · exact hs.count.detach c
  · exact hs.note _

theorem replaceChild (hs : d.Sound) (hp : d.Has p) (hn : d.Has n) (c : NodeId) :
    (d.replaceChild p n c).Sound := by
  by_cases hc : d.parent? c = some p
  · by_cases hne : n = c
    · rw [Document.replaceChild, if_pos hc, if_pos hne]
      exact hs
    · by_cases hcycle : d.isFragment n = false ∧ d.contains n p = true
      · have hrefuse : d.replaceChild p n c = d.count.note (.replacementCycle (d.count.sketch n)) := by
          have hfragment : d.count.isFragment n = false := hcycle.1
          have hcontains : d.count.contains n p = true :=
            (contains_iff hs.count.forest hp).2 (above_counted.2 ((contains_iff hs.forest hp).1 hcycle.2))
          rw [Document.replaceChild, if_pos hc, if_neg hne]
          dsimp only
          rw [hfragment, if_neg Bool.false_ne_true, if_pos hcontains]
        rw [hrefuse]
        exact hs.count.note _
      · rw [replaceChild_eq hs.forest hc hne]
        · exact (hs.insertBefore hp hn (some c)).detach c
        · intro hsolid
          refine ⟨hp, hn, hs.forest.inner hc, hsolid, fun ha => hcycle ⟨hsolid, ?_⟩⟩
          exact (contains_iff hs.forest hp).2 ha
  · rw [Document.replaceChild, if_neg hc]
    exact hs.note _

theorem setText (hs : d.Sound) (hn : d.Has n) (text : String) : (d.setText n text).Sound := by
  unfold Document.setText
  cases hleaf : d.leaf? n with
  | some leaf => exact hs.setData n text
  | none =>
    obtain ⟨hcleared, hrelinked⟩ := clear_spec hs.count n
    have hhas : (d.count.clear n).Has n := hrelinked.has.2 hn
    have hinner := (hrelinked.leaf? n).trans hleaf
    dsimp only
    split_ifs
    · exact hcleared
    · generalize d.count.clear n = cleared at *
      have hmade := made_create hcleared .text text
      have hkind : (cleared.create .text text).2.kind cleared.next = .text := kind_create_next
      apply hmade.sound.attach
      refine ⟨hmade.extends_.has hhas, hmade.has, (hmade.extends_.leaf? hhas).trans hinner, ?_, ?_⟩
      · rw [isFragment, create_fst, hkind]
        rfl
      · exact hmade.sound.forest.not_above_of_childless hmade.children hhas.ne_next

theorem parse (hs : d.Sound) (space : Namespace) (markup : String) : (d.parse space markup).2.Sound := by
  have hmade := made_create hs .fragment ""
  have hkind : (d.create .fragment "").2.kind d.next = .fragment := kind_create_next
  exact (added_addContent hmade.sound hmade.has (by rw [leaf?, create_fst, hkind]) _).sound

theorem copyTree (hs : d.Sound) (hn : d.Has n) : (d.copyTree n).2.Sound := by
  obtain ⟨_, _, _, _, hcopied⟩ := copied_copyTree hs hn
  exact hcopied.sound

end Sound

/-! ### Any calls -/

/-- A call that makes nodes or changes where nodes stand. -/
inductive Edit where
  | create (kind : NodeKind) (data : String)
  | parse (space : Namespace) (markup : String)
  | copy (n : NodeId)
  | insert (p n : NodeId) (reference : Option NodeId)
  | append (p n : NodeId)
  | remove (p c : NodeId)
  | replace (p n c : NodeId)
  | setText (n : NodeId) (text : String)
deriving Repr

namespace Edit

/-- The nodes that a call is made with. -/
def arguments : Edit → List NodeId
  | create _ _ => []
  | parse _ _ => []
  | copy n => [n]
  | insert p n reference => p :: n :: reference.toList
  | append p n => [p, n]
  | remove p c => [p, c]
  | replace p n c => [p, n, c]
  | setText n _ => [n]

/-- The document after a call. -/
def apply (d : Document) : Edit → Document
  | create kind data => (d.create kind data).2
  | parse space markup => (d.parse space markup).2
  | copy n => (d.copyTree n).2
  | insert p n reference => d.insertBefore p n reference
  | append p n => d.append p n
  | remove p c => d.removeChild p c
  | replace p n c => d.replaceChild p n c
  | setText n text => d.setText n text

end Edit

/-- The document after some calls. -/
def edited (d : Document) (edits : List Edit) : Document :=
  edits.foldl Edit.apply d

/-- Each of some calls is made with nodes that are there when it is made. -/
def Callable (d : Document) : List Edit → Prop
  | [] => True
  | e :: rest => (∀ n ∈ e.arguments, d.Has n) ∧ (e.apply d).Callable rest

instance decidableCallable : (d : Document) → (edits : List Edit) → Decidable (d.Callable edits)
  | _, [] => isTrue trivial
  | d, e :: rest =>
    have := decidableCallable (e.apply d) rest
    inferInstanceAs (Decidable (_ ∧ _))

/-- One call with nodes that are there. -/
theorem Sound.apply (hs : d.Sound) {e : Edit} (h : ∀ n ∈ e.arguments, d.Has n) : (e.apply d).Sound := by
  cases e with
  | create kind data => exact hs.create kind data
  | parse space markup => exact hs.parse space markup
  | copy n => exact hs.copyTree (h n (by simp [Edit.arguments]))
  | insert p n reference =>
    exact hs.insertBefore (h p (by simp [Edit.arguments])) (h n (by simp [Edit.arguments])) reference
  | append p n => exact hs.insertBefore (h p (by simp [Edit.arguments])) (h n (by simp [Edit.arguments])) none
  | remove p c => exact hs.removeChild p c
  | replace p n c => exact hs.replaceChild (h p (by simp [Edit.arguments])) (h n (by simp [Edit.arguments])) c
  | setText n text => exact hs.setText (h n (by simp [Edit.arguments])) text

/-- Any calls one after another. -/
theorem Sound.edited {edits : List Edit} (hs : d.Sound) (h : d.Callable edits) :
    (d.edited edits).Sound := by
  induction edits generalizing d with
  | nil => exact hs
  | cons e rest ih => exact ih (hs.apply h.1) h.2

theorem isElement_or_isFragment_of_inner (h : d.leaf? n = none) :
    d.isElement n = true ∨ d.isFragment n = true := by
  unfold leaf? at h
  unfold isElement isFragment
  cases hkind : d.kind n <;> simp_all

/-- Whatever calls a document has been made by, its nodes are a forest: a node is a child of its parent
and of no other node, and only once; no node is above its own parent; only elements and fragments have
children, and no fragment is a child. -/
theorem edited_forest {edits : List Edit} (h : Document.empty.Callable edits) :
    let d := Document.empty.edited edits
    (∀ p n, d.parent? n = some p ↔ n ∈ d.children p) ∧
      (∀ p, (d.children p).Nodup) ∧
      (∀ p q n, n ∈ d.children p → n ∈ d.children q → p = q) ∧
      (∀ p n, d.parent? n = some p → ¬ d.Above p n) ∧
      (∀ p, d.children p ≠ [] → d.isElement p = true ∨ d.isFragment p = true) ∧
      ∀ p n, n ∈ d.children p → d.isFragment n = false := by
  intro d
  have hf : d.Forest := (sound_empty.edited h).forest
  refine ⟨fun p n => hf.mem_children_iff.symm, hf.nodup, ?_, fun p n => hf.acyclic, ?_, ?_⟩
  · intro p q n hp hq
    exact Option.some.inj ((hf.parent_of_mem hp).symm.trans (hf.parent_of_mem hq))
  · intro p hp
    obtain ⟨n, hn⟩ := List.exists_mem_of_ne_nil _ hp
    exact isElement_or_isFragment_of_inner (hf.inner (hf.parent_of_mem hn))
  · intro p n hn
    exact hf.solid (hf.parent_of_mem hn)

/-- Calls most of which ask for something that cannot be done: a node is put into what is below it, a
fragment into itself, something into a text, a node in front of itself, in front of one that is no child,
and in the place of a child that it contains. -/
def carelessEdits : List Edit :=
  [.parse .html "<p>a<b>c</b></p><i></i>", .append ⟨3⟩ ⟨1⟩, .append ⟨0⟩ ⟨0⟩, .append ⟨2⟩ ⟨5⟩,
    .insert ⟨0⟩ ⟨5⟩ (some ⟨5⟩), .insert ⟨0⟩ ⟨5⟩ (some ⟨2⟩), .replace ⟨3⟩ ⟨1⟩ ⟨4⟩, .copy ⟨1⟩,
    .replace ⟨1⟩ ⟨0⟩ ⟨3⟩, .setText ⟨1⟩ "d", .append ⟨5⟩ ⟨6⟩, .remove ⟨0⟩ ⟨2⟩]

theorem forest_carelessEdits :
    Document.empty.Callable carelessEdits ∧
      let d := Document.empty.edited carelessEdits
      ∀ p n, d.parent? n = some p → ¬ d.Above p n := by
  have hcallable : Document.empty.Callable carelessEdits := by decide +kernel
  exact ⟨hcallable, (edited_forest hcallable).2.2.2.1⟩

end LiveMarkup.Document
