import LiveMarkup.Document.Build
import LiveMarkup.Document.Blocks
import LiveMarkup.Document.Walk
import LiveMarkup.Proofs.Document.Attributes
import LiveMarkup.Proofs.Template.Holes
/-!
# Paths in new content

Content is made of new nodes, whatever the document is like: the nodes that were there before keep
their children, except that the node it is put into gets more of them, and below each new node stand
those that the markup has there (`sprouted_addContent`). So a path leads to a node of a new fragment
wherever it leads to a tree in the content that the fragment was made from
(`descend?_createFragment`).
-/

namespace LiveMarkup.Document

open Markup (Tree Tag)
open Markup.Tree (size sizeAll)

variable {d d' d'' : Document} {n p q : NodeId} {r : Plant} {ps qs : List Plant}

theorem children_of_not_has (h : ¬ d.Has n) : d.children n = [] := by
  rw [children, node_of_not_has h]
  rfl

theorem children_link (d : Document) (p n q : NodeId) :
    (d.link p n).children q = if q = p ∧ d.Has p then d.children q ++ [n] else d.children q := by
  have hparent : ∀ d : Document,
      (d.update n fun r => { r with parent := some p }).children q = d.children q := by
    intro d
    rw [children, node_update]
    split <;> rfl
  rw [link, hparent, children, node_update]
  split <;> rfl

theorem children_giveAttribute (d : Document) (n : NodeId) (name value : String) (q : NodeId) :
    (d.giveAttribute n name value).children q = d.children q := by
  rw [children, node_giveAttribute]
  split <;> rfl

/-- Some plants have been made as the last children of a node. -/
structure Sprouted (d d' : Document) (p : NodeId) (plants : List Plant) : Prop where
  nodes : d.nodes.size ≤ d'.nodes.size
  groups : d'.groups = d.groups
  ids : ∀ n ∈ Plant.idsAll plants, ¬ d.Has n ∧ d'.Has n
  row : d'.children p = d.children p ++ plants.map Plant.id
  rows : ∀ q, d.Has q → q ≠ p → d'.children q = d.children q
  below : ∀ path r, Plant.follow plants path = some r → d'.children r.id = r.children.map Plant.id

namespace Sprouted

theorem has (h : Sprouted d d' p ps) (hn : d.Has n) : d'.Has n :=
  Nat.lt_of_lt_of_le hn h.nodes

theorem nil (d : Document) (p : NodeId) : Sprouted d d p [] where
  nodes := Nat.le_refl _
  groups := rfl
  ids n hn := by cases hn
  row := by simp
  rows _ _ _ := rfl
  below path r hr := by cases path <;> cases hr

theorem trans (h : Sprouted d d' p ps) (h' : Sprouted d' d'' p qs) (hp : d.Has p) :
    Sprouted d d'' p (ps ++ qs) where
  nodes := Nat.le_trans h.nodes h'.nodes
  groups := h'.groups.trans h.groups
  ids n hn := by
    rw [Plant.idsAll_append, List.mem_append] at hn
    rcases hn with hn | hn
    · exact ⟨(h.ids n hn).1, h'.has (h.ids n hn).2⟩
    · exact ⟨fun hd => (h'.ids n hn).1 (h.has hd), (h'.ids n hn).2⟩
  row := by rw [h'.row, h.row, List.map_append, List.append_assoc]
  rows q hq hne := by rw [h'.rows q (h.has hq) hne, h.rows q hq hne]
  below path r hr := by
    cases path with
    | nil => cases hr
    | cons i path =>
      obtain ⟨c, hc, hat⟩ := Plant.follow_cons.1 hr
      by_cases hi : i < ps.length
      · rw [List.getElem?_append_left hi] at hc
        have hfollow := Plant.follow_cons.2 ⟨c, hc, hat⟩
        obtain ⟨hnew, hhas⟩ := h.ids r.id (Plant.id_mem_of_follow hfollow)
        rw [h'.rows r.id hhas fun he => hnew (he ▸ hp), h.below _ r hfollow]
      · rw [List.getElem?_append_right (Nat.le_of_not_lt hi)] at hc
        exact h'.below _ r (Plant.follow_cons.2 ⟨c, hc, hat⟩)

end Sprouted

/-- A node has been made that is linked to no other. -/
structure Budded (d d' : Document) (n : NodeId) : Prop where
  fresh : n = d.next
  nodes : d'.nodes.size = d.nodes.size + 1
  groups : d'.groups = d.groups
  children : ∀ q, d'.children q = d.children q

theorem budded_create (d : Document) (kind : NodeKind) (data : String) :
    Budded d (d.create kind data).2 (d.create kind data).1 where
  fresh := rfl
  nodes := Array.size_push _
  groups := rfl
  children _ := children_create

theorem budded_createElement (d : Document) (tag : Tag) :
    Budded d (d.createElement tag).2 (d.createElement tag).1 := by
  have hbudded := budded_create d (.element tag.name tag.space) ""
  rw [createElement]
  dsimp only
  generalize d.create (.element tag.name tag.space) "" = made at hbudded ⊢
  obtain ⟨n, d'⟩ := made
  dsimp only at hbudded ⊢
  generalize tag.attributes = pairs
  induction pairs generalizing d' with
  | nil => exact hbudded
  | cons a rest ih =>
    refine ih _ ⟨hbudded.fresh, ?_, hbudded.groups, fun q => ?_⟩
    · rw [← hbudded.nodes]
      exact size_nodes_update ..
    · rw [children_giveAttribute, hbudded.children]

/-- A new node becomes the last child of a node. -/
theorem Budded.link (h : Budded d d' n) (hp : d.Has p) :
    (d'.link p n).nodes.size = d.nodes.size + 1 ∧ (d'.link p n).groups = d.groups ∧
      (d'.link p n).Has n ∧ (d'.link p n).children n = [] ∧
      (d'.link p n).children p = d.children p ++ [n] ∧
      ∀ q, q ≠ p → (d'.link p n).children q = d.children q := by
  have hsize : (d'.link p n).nodes.size = d.nodes.size + 1 := by
    rw [Document.link, size_nodes_update, size_nodes_update, h.nodes]
  have hne : n ≠ p := h.fresh ▸ (hp.ne_next).symm
  have hhas : d'.Has p := by
    rw [Has, h.nodes]
    exact Nat.lt_succ_of_lt hp
  refine ⟨hsize, h.groups, ?_, ?_, ?_, fun q hq => ?_⟩
  · rw [Has, hsize, h.fresh]
    exact Nat.lt_succ_self _
  · rw [children_link, if_neg fun hc => hne hc.1, h.children, h.fresh]
    exact children_of_not_has not_has_next
  · rw [children_link, if_pos ⟨rfl, hhas⟩, h.children]
  · rw [children_link, if_neg fun hc => hq hc.1, h.children]

theorem sprouted_leaf (h : Budded d d' n) (hp : d.Has p) (hids : r.ids = [n])
    (hchildren : r.children = []) : Sprouted d (d'.link p n) p [r] := by
  obtain ⟨hsize, hgroups, hhas, hnil, hrow, hrows⟩ := h.link hp
  have hid : r.id = n := by
    have hmem := r.id_mem_ids
    rwa [hids, List.mem_singleton] at hmem
  refine ⟨hsize ▸ Nat.le_succ _, hgroups, fun m hm => ?_, ?_, fun q _ => hrows q, fun path q hq => ?_⟩
  · rw [Plant.idsAll_cons, Plant.idsAll_nil, List.append_nil, hids, List.mem_singleton] at hm
    subst hm
    exact ⟨h.fresh ▸ not_has_next, hhas⟩
  · rw [hrow, List.map_singleton, hid]
  · cases path with
    | nil => cases hq
    | cons i path =>
      obtain ⟨c, hc, hat⟩ := Plant.follow_cons.1 hq
      obtain rfl : r = c := List.mem_singleton.1 (List.mem_of_getElem? hc) |>.symm
      cases path with
      | nil =>
        cases hat
        rw [hid, hnil, hchildren]
        rfl
      | cons j path =>
        rw [Plant.at?, hchildren] at hat
        cases hat

theorem sprouted_trees :
    (∀ (t : Tree) {p : NodeId} {d : Document}, d.Has p →
      Sprouted d (addTree p d t) p [plant d.nodes.size t] ∧
        (addTree p d t).nodes.size = d.nodes.size + t.size) ∧
    ∀ (ts : List Tree) {p : NodeId} {d : Document}, d.Has p →
      Sprouted d (addContent p d ts) p (plantAll d.nodes.size ts) ∧
        (addContent p d ts).nodes.size = d.nodes.size + sizeAll ts := by
  refine Markup.Tree.induct ?_ ?_ ?_ ?_ ?_
  · intro tag children ih p d hp
    have hbudded := budded_createElement d tag
    obtain ⟨hsize, hgroups, hhas, hnil, hrow, hrows⟩ := hbudded.link hp
    have hfresh := hbudded.fresh
    rw [addTree]
    generalize (d.createElement tag).1 = n at *
    generalize (d.createElement tag).2.link p n = d₁ at *
    have hne : p ≠ n := hfresh ▸ hp.ne_next
    have hp₁ : d₁.Has p := by
      rw [Has, hsize]
      exact Nat.lt_succ_of_lt hp
    obtain ⟨h, hnodes⟩ := ih hhas
    rw [hsize] at h hnodes
    have hid : n = ⟨d.nodes.size⟩ := hfresh
    refine ⟨⟨?_, h.groups.trans hgroups, fun m hm => ?_, ?_, fun q hq hqp => ?_, fun path r hr => ?_⟩, ?_⟩
    · exact Nat.le_trans (hsize ▸ Nat.le_succ _) h.nodes
    · rw [Plant.idsAll_cons, Plant.idsAll_nil, List.append_nil, plant, Plant.ids,
        List.mem_cons] at hm
      rcases hm with rfl | hm
      · exact ⟨Nat.lt_irrefl _, h.has (hid ▸ hhas)⟩
      · refine ⟨fun hd => (h.ids m hm).1 ?_, (h.ids m hm).2⟩
        rw [Has, hsize]
        exact Nat.lt_succ_of_lt hd
    · rw [h.rows p hp₁ hne, hrow, List.map_singleton, plant, Plant.id_element, hid]
    · have hqn : q ≠ n := hfresh ▸ hq.ne_next
      have hq₁ : d₁.Has q := by
        rw [Has, hsize]
        exact Nat.lt_succ_of_lt hq
      rw [h.rows q hq₁ hqn, hrows q hqp]
    · cases path with
      | nil => cases hr
      | cons i path =>
        obtain ⟨c, hc, hat⟩ := Plant.follow_cons.1 hr
        obtain rfl : plant d.nodes.size (.element tag children) = c :=
          List.mem_singleton.1 (List.mem_of_getElem? hc) |>.symm
        cases path with
        | nil =>
          cases hat
          rw [plant, Plant.id_element, ← hid, h.row, hnil]
          rfl
        | cons j path =>
          rw [Plant.at?_cons, plant] at hat
          exact h.below _ r hat
    · rw [hnodes, size]
      omega
  · intro data p d hp
    have hbudded := budded_create d .text data
    refine ⟨sprouted_leaf hbudded hp rfl rfl, ?_⟩
    exact (hbudded.link hp).1
  · intro data p d hp
    have hbudded := budded_create d .comment data
    refine ⟨sprouted_leaf hbudded hp rfl rfl, ?_⟩
    exact (hbudded.link hp).1
  · intro p d hp
    exact ⟨.nil d p, rfl⟩
  · intro t ts iht ihts p d hp
    obtain ⟨h, hnodes⟩ := iht hp
    obtain ⟨h', hnodes'⟩ := ihts (h.has hp)
    rw [hnodes] at h' hnodes'
    refine ⟨?_, ?_⟩
    · rw [addContent, plantAll]
      exact h.trans h' hp
    · rw [addContent, hnodes', sizeAll]
      omega

/-- Content becomes new nodes below the node that it is put into. -/
theorem sprouted_addContent (hp : d.Has p) (ts : List Tree) :
    Sprouted d (addContent p d ts) p (plantAll d.nodes.size ts) :=
  (sprouted_trees.2 ts hp).1

/-! ### New fragments -/

/-- The fragment of some content is new, and so are all nodes below it. -/
theorem sprouted_createFragment (d : Document) (content : List Tree) :
    (d.createFragment content).1 = d.next ∧
      (d.createFragment content).2.children d.next
        = (plantAll (d.nodes.size + 1) content).map Plant.id ∧
      Sprouted (d.create .fragment "").2 (d.createFragment content).2 d.next
        (plantAll (d.nodes.size + 1) content) := by
  have hbudded := budded_create d .fragment ""
  have hhas : (d.create .fragment "").2.Has d.next := by
    rw [Has, hbudded.nodes]
    exact Nat.lt_succ_self _
  have h := sprouted_addContent hhas content
  rw [hbudded.nodes] at h
  refine ⟨rfl, ?_, h⟩
  exact h.row.trans (by rw [hbudded.children, children_of_not_has not_has_next, List.nil_append])

/-- A path leads on as long as there are rows for it. -/
theorem descend?_of_rows {path : List Nat}
    (h : ∀ path r, Plant.follow ps path = some r → d.children r.id = r.children.map Plant.id)
    (hrow : d.children p = ps.map Plant.id) (hpath : Plant.follow ps path = some r) :
    d.descend? p path = some r.id := by
  induction path generalizing p ps with
  | nil => cases hpath
  | cons i path ih =>
    obtain ⟨c, hc, hat⟩ := Plant.follow_cons.1 hpath
    show (d.child? p i >>= fun m => d.descend? m path) = _
    rw [child?, hrow, List.getElem?_map, hc]
    show d.descend? c.id path = _
    cases path with
    | nil =>
      cases hat
      rfl
    | cons j path =>
      rw [Plant.at?_cons] at hat
      refine ih (fun path' r' hr' => ?_) (h [i] c (Plant.follow_cons.2 ⟨c, hc, rfl⟩)) hat
      cases path' with
      | nil => cases hr'
      | cons k path' =>
        exact h (i :: k :: path') r' (Plant.follow_cons.2 ⟨c, hc, Plant.at?_cons ▸ hr'⟩)

/-- A path that leads to a tree of some content leads to a node of a fragment made from it. -/
theorem descend?_createFragment (d : Document) {content : List Tree} {path : List Nat} {t : Tree}
    (h : Tree.follow content path = some t) :
    ∃ n, (d.createFragment content).2.descend? (d.createFragment content).1 path = some n ∧
      (d.createFragment content).2.Has n := by
  obtain ⟨hroot, hrow, hsprouted⟩ := sprouted_createFragment d content
  rw [← (Plant.tree_plant.2 content (d.nodes.size + 1)), Plant.follow_trees,
    Option.map_eq_some_iff] at h
  obtain ⟨q, hq, -⟩ := h
  exact ⟨q.id, hroot ▸ descend?_of_rows hsprouted.below hrow hq,
    (hsprouted.ids q.id (Plant.id_mem_of_follow hq)).2⟩

/-- Where paths lead depends on the rows of children alone. -/
theorem descend?_congr (h : ∀ n, d'.children n = d.children n) (p : NodeId) (path : List Nat) :
    d'.descend? p path = d.descend? p path := by
  have hchild : d'.child? = d.child? := by
    funext n i
    rw [child?, child?, h]
  rw [descend?, descend?, hchild]

end LiveMarkup.Document
