import LiveMarkup.Document.Basic
import Mathlib.Data.List.Nodup
/-!
# Trees whose nodes have identities

Markup that has been turned into nodes is a `Plant`: the same tree, with the identity that each node
was given. Nodes are made in document order, so the identities in a new plant are consecutive numbers
(`idsAll_plantAll`). What later happens to the nodes is described by grafting: each node of a plant is
replaced by some plants, from the leaves up, and one graft after another is a graft again
(`graftAll_graftAll`).
-/

namespace LiveMarkup

open Markup (Tree Tag)

/-- A tree of markup whose nodes have been made. -/
inductive Plant where
  | element (id : NodeId) (tag : Tag) (children : List Plant)
  | text (id : NodeId) (data : String)
  | comment (id : NodeId) (data : String)

mutual

/-- The number of nodes of a tree. -/
def Markup.Tree.size : Tree → Nat
  | .element _ children => sizeAll children + 1
  | .text _ => 1
  | .comment _ => 1

/-- The number of nodes of some trees. -/
def Markup.Tree.sizeAll : List Tree → Nat
  | [] => 0
  | tree :: rest => tree.size + sizeAll rest

end

open Markup.Tree (size sizeAll)

mutual

/-- A tree whose nodes are numbered from `i` on. -/
def plant (i : Nat) : Tree → Plant
  | .element tag children => .element ⟨i⟩ tag (plantAll (i + 1) children)
  | .text data => .text ⟨i⟩ data
  | .comment data => .comment ⟨i⟩ data

/-- Some trees whose nodes are numbered from `i` on. -/
def plantAll (i : Nat) : List Tree → List Plant
  | [] => []
  | tree :: rest => plant i tree :: plantAll (i + tree.size) rest

end

namespace Plant

/-- The identity of the topmost node. -/
def id : Plant → NodeId
  | element id _ _ => id
  | text id _ => id
  | comment id _ => id

/-- The plants directly below. -/
def children : Plant → List Plant
  | element _ _ children => children
  | text _ _ => []
  | comment _ _ => []

mutual

/-- All identities in a plant. -/
def ids : Plant → List NodeId
  | element id _ children => id :: idsAll children
  | text id _ => [id]
  | comment id _ => [id]

/-- All identities in some plants. -/
def idsAll : List Plant → List NodeId
  | [] => []
  | q :: rest => q.ids ++ idsAll rest

end

mutual

/-- The markup of a plant. -/
def tree : Plant → Tree
  | element _ tag children => .element tag (trees children)
  | text _ data => .text data
  | comment _ data => .comment data

/-- The markup of some plants. -/
def trees : List Plant → List Tree
  | [] => []
  | q :: rest => q.tree :: trees rest

end

mutual

/-- A plant in which each node, with what has become of its children, is replaced by some plants. -/
def graft (f : Plant → List Plant) : Plant → List Plant
  | element id tag children => f (element id tag (graftAll f children))
  | text id data => f (text id data)
  | comment id data => f (comment id data)

/-- Some plants in which each node is replaced. -/
def graftAll (f : Plant → List Plant) : List Plant → List Plant
  | [] => []
  | q :: rest => q.graft f ++ graftAll f rest

end

/-- The plant that some child indices lead to from the top of a plant. -/
def at? (q : Plant) : List Nat → Option Plant
  | [] => some q
  | i :: path => q.children[i]?.bind fun c => c.at? path

/-- The plant that some child indices lead to, the first of them to one of some plants. -/
def follow (plants : List Plant) : List Nat → Option Plant
  | [] => none
  | i :: path => plants[i]?.bind fun q => q.at? path

variable {f g h : Plant → List Plant} {q q' : Plant} {ps qs plants : List Plant} {n : NodeId}

/-- Induction over plants and lists of plants. -/
theorem induct {motive : Plant → Prop} {motives : List Plant → Prop}
    (element : ∀ id tag children, motives children → motive (.element id tag children))
    (text : ∀ id data, motive (.text id data)) (comment : ∀ id data, motive (.comment id data))
    (nil : motives []) (cons : ∀ q qs, motive q → motives qs → motives (q :: qs)) :
    (∀ q, motive q) ∧ ∀ qs, motives qs :=
  ⟨@Plant.rec motive motives element text comment nil cons,
    @Plant.rec_1 motive motives element text comment nil cons⟩

@[simp] theorem id_element {id : NodeId} {tag : Tag} : (element id tag ps).id = id := rfl

@[simp] theorem id_text {id : NodeId} {data : String} : (text id data).id = id := rfl

@[simp] theorem id_comment {id : NodeId} {data : String} : (comment id data).id = id := rfl

@[simp] theorem idsAll_nil : idsAll [] = [] := by
  rw [idsAll]

@[simp] theorem idsAll_cons : idsAll (q :: ps) = q.ids ++ idsAll ps := by
  rw [idsAll]

@[simp] theorem idsAll_append : idsAll (ps ++ qs) = idsAll ps ++ idsAll qs := by
  induction ps with
  | nil => simp
  | cons p rest ih => simp [ih]

theorem mem_idsAll : n ∈ idsAll ps ↔ ∃ q ∈ ps, n ∈ q.ids := by
  induction ps with
  | nil => simp
  | cons p rest ih => simp [ih]

theorem ids_eq (q : Plant) : q.ids = q.id :: idsAll q.children := by
  cases q <;> rw [ids] <;> simp [id, children]

theorem id_mem_ids (q : Plant) : q.id ∈ q.ids := by
  rw [ids_eq]
  exact List.mem_cons_self ..

theorem id_mem_idsAll (h : q ∈ ps) : q.id ∈ idsAll ps :=
  mem_idsAll.2 ⟨q, h, q.id_mem_ids⟩

theorem sublist_idsAll (ps : List Plant) : (ps.map Plant.id).Sublist (idsAll ps) := by
  induction ps with
  | nil => exact List.Sublist.refl _
  | cons q rest ih =>
    rw [idsAll_cons, ids_eq]
    exact (ih.trans (List.sublist_append_right ..)).cons_cons q.id

@[simp] theorem trees_nil : trees [] = [] := by
  rw [trees]

@[simp] theorem trees_cons : trees (q :: ps) = q.tree :: trees ps := by
  rw [trees]

@[simp] theorem trees_append : trees (ps ++ qs) = trees ps ++ trees qs := by
  induction ps with
  | nil => simp
  | cons p rest ih => simp [ih]

@[simp] theorem graftAll_nil : graftAll f [] = [] := by
  rw [graftAll]

@[simp] theorem graftAll_cons : graftAll f (q :: ps) = q.graft f ++ graftAll f ps := by
  rw [graftAll]

@[simp] theorem graftAll_append : graftAll f (ps ++ qs) = graftAll f ps ++ graftAll f qs := by
  induction ps with
  | nil => simp
  | cons p rest ih => simp [ih]

theorem mem_graftAll : q ∈ graftAll f ps ↔ ∃ p ∈ ps, q ∈ p.graft f := by
  induction ps with
  | nil => simp
  | cons p rest ih => simp [ih]

/-- A graft that leaves the nodes of some plants alone does nothing to them. -/
theorem graft_eq_self :
    (∀ q : Plant, (∀ r : Plant, r.id ∈ q.ids → f r = [r]) → q.graft f = [q]) ∧
      ∀ qs : List Plant, (∀ r : Plant, r.id ∈ idsAll qs → f r = [r]) → graftAll f qs = qs := by
  refine induct ?_ ?_ ?_ ?_ ?_
  · intro id tag children ih hf
    rw [ids] at hf
    rw [graft, ih fun r hr => hf r (List.mem_cons_of_mem _ hr)]
    exact hf _ (List.mem_cons_self ..)
  · intro id data hf
    rw [graft]
    exact hf _ (id_mem_ids _)
  · intro id data hf
    rw [graft]
    exact hf _ (id_mem_ids _)
  · intro _
    exact graftAll_nil
  · intro q qs ihq ihqs hf
    rw [idsAll_cons] at hf
    rw [graftAll_cons, ihq fun r hr => hf r (List.mem_append_left _ hr),
      ihqs fun r hr => hf r (List.mem_append_right _ hr), List.singleton_append]

theorem graftAll_eq_self (hf : ∀ q : Plant, q.id ∈ idsAll ps → f q = [q]) : graftAll f ps = ps :=
  graft_eq_self.2 ps hf

/-- A graft brings in no other nodes than what the nodes are replaced by. -/
theorem mem_idsAll_graftAll {E : NodeId → Prop}
    (hf : ∀ q : Plant, ∀ n ∈ idsAll (f q), n ∈ q.ids ∨ E n) (h : n ∈ idsAll (graftAll f ps)) :
    n ∈ idsAll ps ∨ E n := by
  have hsub : (∀ q : Plant, ∀ n ∈ idsAll (q.graft f), n ∈ q.ids ∨ E n) ∧
      ∀ qs : List Plant, ∀ n ∈ idsAll (graftAll f qs), n ∈ idsAll qs ∨ E n := by
    refine induct ?_ ?_ ?_ ?_ ?_
    · intro id tag children ih n hn
      rw [graft] at hn
      refine (hf _ n hn).elim (fun hn => ?_) .inr
      rw [ids, List.mem_cons] at hn ⊢
      rcases hn with rfl | hn
      · exact .inl (.inl rfl)
      · exact (ih n hn).imp_left .inr
    · intro id data n hn
      rw [graft] at hn
      exact hf _ n hn
    · intro id data n hn
      rw [graft] at hn
      exact hf _ n hn
    · intro n hn
      rw [graftAll_nil, idsAll_nil] at hn
      cases hn
    · intro q qs ihq ihqs n hn
      rw [graftAll_cons, idsAll_append, List.mem_append] at hn
      rw [idsAll_cons, List.mem_append]
      rcases hn with hn | hn
      · exact (ihq n hn).imp_left .inl
      · exact (ihqs n hn).imp_left .inr
  exact hsub.2 ps n h

/-- One graft after another. -/
theorem graftAll_graftAll
    (helement : ∀ {id tag children}, id ∈ idsAll ps →
      graftAll g (f (element id tag children)) = h (element id tag (graftAll g children)))
    (htext : ∀ {id data}, id ∈ idsAll ps → graftAll g (f (text id data)) = h (text id data))
    (hcomment : ∀ {id data}, id ∈ idsAll ps →
      graftAll g (f (comment id data)) = h (comment id data)) :
    graftAll g (graftAll f ps) = graftAll h ps := by
  have hsub : (∀ q : Plant, q.ids ⊆ idsAll ps → graftAll g (q.graft f) = q.graft h) ∧
      ∀ qs : List Plant, idsAll qs ⊆ idsAll ps →
        graftAll g (graftAll f qs) = graftAll h qs := by
    refine induct ?_ ?_ ?_ ?_ ?_
    · intro id tag children ih hmem
      rw [ids, List.cons_subset] at hmem
      rw [graft, graft, helement hmem.1, ih hmem.2]
    · intro id data hmem
      rw [graft, graft]
      exact htext (hmem (id_mem_ids _))
    · intro id data hmem
      rw [graft, graft]
      exact hcomment (hmem (id_mem_ids _))
    · intro _
      rw [graftAll_nil, graftAll_nil, graftAll_nil]
    · intro q qs ihq ihqs hmem
      rw [idsAll_cons, List.append_subset] at hmem
      rw [graftAll_cons, graftAll_cons, graftAll_append, ihq hmem.1, ihqs hmem.2]
  exact hsub.2 ps (List.Subset.refl _)

/-! ### Paths -/

theorem follow_cons {i : Nat} {path : List Nat} :
    follow ps (i :: path) = some q ↔ ∃ r, ps[i]? = some r ∧ r.at? path = some q :=
  Option.bind_eq_some_iff

theorem at?_cons {i : Nat} {path : List Nat} : q.at? (i :: path) = follow q.children (i :: path) :=
  rfl

/-- What is reached is a part of where the way began. -/
theorem ids_subset_of_at? {path : List Nat} (h : q.at? path = some q') : q'.ids ⊆ q.ids := by
  induction path generalizing q with
  | nil =>
    cases h
    exact List.Subset.refl _
  | cons i path ih =>
    obtain ⟨c, hc, hq⟩ := follow_cons.1 (at?_cons ▸ h)
    intro n hn
    rw [ids_eq]
    exact List.mem_cons_of_mem _ (mem_idsAll.2 ⟨c, List.mem_of_getElem? hc, ih hq hn⟩)

theorem ids_subset_of_follow {path : List Nat} (h : follow ps path = some q) :
    q.ids ⊆ idsAll ps := by
  cases path with
  | nil => cases h
  | cons i path =>
    obtain ⟨r, hr, hq⟩ := follow_cons.1 h
    exact fun n hn => mem_idsAll.2 ⟨r, List.mem_of_getElem? hr, ids_subset_of_at? hq hn⟩

theorem id_mem_of_follow {path : List Nat} (h : follow ps path = some q) : q.id ∈ idsAll ps :=
  ids_subset_of_follow h q.id_mem_ids

/-- A node is in no more than one of some plants that have no node in common. -/
theorem eq_of_getElem? (hnd : (idsAll ps).Nodup) {i j : Nat} (hi : ps[i]? = some q)
    (hj : ps[j]? = some q') (hn : n ∈ q.ids) (hn' : n ∈ q'.ids) : i = j := by
  induction ps generalizing i j with
  | nil => cases hi
  | cons p rest ih =>
    rw [idsAll_cons, List.nodup_append] at hnd
    cases i with
    | zero =>
      cases j with
      | zero => rfl
      | succ j =>
        cases hi
        exact absurd rfl (hnd.2.2 n hn n (mem_idsAll.2 ⟨q', List.mem_of_getElem? hj, hn'⟩))
    | succ i =>
      cases j with
      | zero =>
        cases hj
        exact absurd rfl (hnd.2.2 n hn' n (mem_idsAll.2 ⟨q, List.mem_of_getElem? hi, hn⟩))
      | succ j => rw [ih hnd.2.1 hi hj]

theorem nodup_of_mem (hnd : (idsAll ps).Nodup) (hq : q ∈ ps) : q.ids.Nodup := by
  induction ps with
  | nil => cases hq
  | cons p rest ih =>
    rw [idsAll_cons, List.nodup_append] at hnd
    rcases List.mem_cons.1 hq with rfl | hq
    · exact hnd.1
    · exact ih hnd.2.1 hq

/-- Two ways to one node are the same. -/
theorem eq_of_at? {r : Plant} {path path' : List Nat} (hnd : r.ids.Nodup)
    (h : r.at? path = some q) (h' : r.at? path' = some q') (hid : q.id = q'.id) : path = path' := by
  induction path generalizing r path' with
  | nil =>
    cases h
    cases path' with
    | nil => rfl
    | cons j path' =>
      -- the node would be below itself
      rw [ids_eq, List.nodup_cons] at hnd
      exact absurd (hid ▸ id_mem_of_follow (at?_cons ▸ h')) hnd.1
  | cons i path ih =>
    have hbelow := id_mem_of_follow (at?_cons ▸ h)
    rw [ids_eq, List.nodup_cons] at hnd
    cases path' with
    | nil =>
      cases h'
      exact absurd (hid ▸ hbelow) hnd.1
    | cons j path' =>
      obtain ⟨c, hc, hq⟩ := follow_cons.1 (at?_cons ▸ h)
      obtain ⟨c', hc', hq'⟩ := follow_cons.1 (at?_cons ▸ h')
      have hij := eq_of_getElem? hnd.2 hc hc' (ids_subset_of_at? hq q.id_mem_ids)
        (hid ▸ ids_subset_of_at? hq' q'.id_mem_ids)
      subst hij
      rw [hc] at hc'
      cases hc'
      rw [ih (nodup_of_mem hnd.2 (List.mem_of_getElem? hc)) hq hq']

theorem eq_of_follow {path path' : List Nat} (hnd : (idsAll ps).Nodup)
    (h : follow ps path = some q) (h' : follow ps path' = some q') (hid : q.id = q'.id) :
    path = path' := by
  cases path with
  | nil => cases h
  | cons i path =>
    cases path' with
    | nil => cases h'
    | cons j path' =>
      obtain ⟨r, hr, hq⟩ := follow_cons.1 h
      obtain ⟨r', hr', hq'⟩ := follow_cons.1 h'
      have hij := eq_of_getElem? hnd hr hr' (ids_subset_of_at? hq q.id_mem_ids)
        (hid ▸ ids_subset_of_at? hq' q'.id_mem_ids)
      subst hij
      rw [hr] at hr'
      cases hr'
      rw [eq_of_at? (nodup_of_mem hnd (List.mem_of_getElem? hr)) hq hq' hid]

end Plant

/-! ### Numbering -/

/-- Some identities that follow each other. -/
def numbers (i k : Nat) : List NodeId :=
  (List.range' i k).map NodeId.mk

theorem mem_numbers {n : NodeId} {i k : Nat} : n ∈ numbers i k ↔ i ≤ n.index ∧ n.index < i + k := by
  rw [numbers, List.mem_map]
  constructor
  · rintro ⟨j, hj, rfl⟩
    simpa using List.mem_range'_1.1 hj
  · intro h
    exact ⟨n.index, List.mem_range'_1.2 h, rfl⟩

theorem nodup_numbers (i k : Nat) : (numbers i k).Nodup := by
  refine List.Nodup.map (fun a b hab => ?_) (List.nodup_range' ..)
  cases hab
  rfl

theorem numbers_append (i j k : Nat) : numbers i j ++ numbers (i + j) k = numbers i (j + k) := by
  rw [numbers, numbers, numbers, ← List.map_append, List.range'_append_1]

namespace Plant

theorem ids_plant :
    (∀ (t : Tree) (i : Nat), (plant i t).ids = numbers i t.size) ∧
      ∀ (ts : List Tree) (i : Nat), idsAll (plantAll i ts) = numbers i (sizeAll ts) := by
  refine Markup.Tree.induct ?_ ?_ ?_ ?_ ?_
  · intro tag children ih i
    rw [plant, ids, ih, size, Nat.add_comm (sizeAll children), ← numbers_append]
    rfl
  · intro data i
    rw [plant, ids, size]
    rfl
  · intro data i
    rw [plant, ids, size]
    rfl
  · intro i
    rw [plantAll, sizeAll, idsAll_nil]
    rfl
  · intro t ts iht ihts i
    rw [plantAll, idsAll_cons, iht, ihts, sizeAll, numbers_append]

theorem idsAll_plantAll (i : Nat) (ts : List Tree) :
    idsAll (plantAll i ts) = numbers i (sizeAll ts) :=
  ids_plant.2 ts i

theorem tree_plant :
    (∀ (t : Tree) (i : Nat), (plant i t).tree = t) ∧
      ∀ (ts : List Tree) (i : Nat), trees (plantAll i ts) = ts := by
  refine Markup.Tree.induct ?_ ?_ ?_ ?_ ?_
  · intro tag children ih i
    rw [plant, tree, ih]
  · intro data i
    rw [plant, tree]
  · intro data i
    rw [plant, tree]
  · intro i
    rw [plantAll, trees_nil]
  · intro t ts iht ihts i
    rw [plantAll, trees_cons, iht, ihts]

end Plant

end LiveMarkup
