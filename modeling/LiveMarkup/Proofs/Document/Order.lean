import LiveMarkup.Document.View
import LiveMarkup.Document.Walk
import LiveMarkup.Proofs.Document.Edits
import LiveMarkup.Proofs.Document.Moves
import Mathlib.Data.List.Lex
import Mathlib.Data.List.Induction
/-!
# Document order

The path from a root to a node below it is the only one that leads there (`pathTo_eq`), and paths sort nodes:
a node comes before what is below it, and all that is below it comes before what follows. Going from each node
to the next one takes no account of paths. It climbs to where a sibling follows, and it comes to just the nodes
of the outline, in their order, by induction over the outline: the node behind a subtree is the next sibling of
its topmost node, or else what is behind the parent (`behind?_of_children`). So paths increase on the way, and no
node is met twice (`walk_follows_outline`).
-/

namespace LiveMarkup.Document

variable {d : Document} {n m p c r : NodeId} {i fuel : Nat} {path : List Nat} {front back : List NodeId}

/-! ### Paths -/

@[simp] theorem descend?_nil : d.descend? r [] = some r := rfl

theorem descend?_cons : d.descend? r (i :: path) = (d.child? r i).bind fun c => d.descend? c path := rfl

theorem descend?_concat :
    d.descend? r (path ++ [i]) = some c ↔ ∃ n, d.descend? r path = some n ∧ d.child? n i = some c := by
  simp only [descend?, List.foldlM_append, List.foldlM_cons, List.foldlM_nil, bind_pure]
  exact Option.bind_eq_some_iff

theorem child?_mem (h : d.child? n i = some c) : c ∈ d.children n :=
  List.mem_of_getElem? h

theorem Forest.parent_of_child? (hf : d.Forest) (h : d.child? n i = some c) : d.parent? c = some n :=
  hf.parent_of_mem (child?_mem h)

theorem above_of_descend? (hf : d.Forest) (h : d.descend? r path = some n) : d.Above n r := by
  induction path using List.reverseRecOn generalizing n with
  | nil =>
    cases h
    exact .self
  | append_singleton path i ih =>
    obtain ⟨p, hp, hn⟩ := descend?_concat.1 h
    exact (Above.of_parent (hf.parent_of_child? hn)).trans (ih hp)

/-- Some path leads to each node below a root. -/
theorem exists_descend? (hf : d.Forest) (h : d.Above n r) : ∃ path, d.descend? r path = some n := by
  induction h with
  | self => exact ⟨[], rfl⟩
  | @up m p _ hp ih =>
    obtain ⟨path, hpath⟩ := ih
    obtain ⟨i, hi⟩ := List.mem_iff_getElem?.1 (hf.mem_of_parent hp)
    refine ⟨i :: path, ?_⟩
    rw [descend?_cons, child?, hi, Option.bind_some, hpath]

/-- On the way up there is a node for each step. -/
theorem length_climb_of_descend? (hf : d.Forest) (h : d.descend? r path = some n) :
    (d.climb (path.length + 1) n).length = path.length + 1 := by
  induction path using List.reverseRecOn generalizing n with
  | nil =>
    rw [List.length_nil, climb]
    cases d.parent? n <;> rfl
  | append_singleton path i ih =>
    obtain ⟨p, hp, hn⟩ := descend?_concat.1 h
    rw [List.length_append, List.length_singleton, climb, hf.parent_of_child? hn, List.length_cons, ih hp]

/-- No path is longer than there are nodes. -/
theorem length_lt_of_descend? (hf : d.Forest) (h : d.descend? r path = some n) (hn : d.Has n) :
    path.length < d.nodes.size := by
  rw [← Nat.succ_le_iff, Nat.succ_eq_add_one, ← length_climb_of_descend? hf h]
  exact length_le_size (nodup_climb hf _ n) fun a ha => (above_of_mem_climb ha).has hf hn

theorem length_le_of_descend? (hf : d.Forest) (h : d.descend? r path = some n) : path.length ≤ d.nodes.size := by
  induction path using List.reverseRecOn with
  | nil => exact Nat.zero_le _
  | append_singleton path i _ =>
    obtain ⟨p, -, hn⟩ := descend?_concat.1 h
    exact Nat.le_of_lt (length_lt_of_descend? hf h (has_of_parent? (hf.parent_of_child? hn)))

/-- What is below a root is not the root. -/
theorem ne_root_of_child? (hf : d.Forest) (hn : d.descend? r path = some n) (hc : d.child? n i = some c) :
    c ≠ r := by
  rintro rfl
  exact hf.acyclic (hf.parent_of_child? hc) (above_of_descend? hf hn)

theorem pathUp_eq (hf : d.Forest) (h : d.descend? r path = some n) (hfuel : path.length < fuel) :
    d.pathUp r fuel n = path.reverse := by
  induction path using List.reverseRecOn generalizing n fuel with
  | nil =>
    cases h
    obtain ⟨fuel, rfl⟩ := Nat.exists_eq_add_one_of_ne_zero (Nat.ne_of_gt hfuel)
    rw [pathUp, if_pos rfl, List.reverse_nil]
  | append_singleton path i ih =>
    obtain ⟨p, hp, hn⟩ := descend?_concat.1 h
    rw [List.length_append, List.length_singleton] at hfuel
    obtain ⟨fuel, rfl⟩ := Nat.exists_eq_add_one_of_ne_zero (Nat.ne_of_gt (Nat.zero_lt_of_lt hfuel))
    obtain ⟨hi, hget⟩ := List.getElem?_eq_some_iff.1 (show (d.children p)[i]? = some n from hn)
    have hindex : (d.children p).idxOf n = i := by
      rw [← hget]
      exact (hf.nodup p).idxOf_getElem i hi
    rw [pathUp, if_neg (ne_root_of_child? hf hp hn), hf.parent_of_child? hn, List.reverse_append,
      List.reverse_singleton, List.singleton_append]
    dsimp only
    rw [hindex, ih hp (Nat.lt_of_succ_lt_succ hfuel)]

/-- The path that leads to a node is the one that is found from there. -/
theorem pathTo_eq (hf : d.Forest) (h : d.descend? r path = some n) : d.pathTo r n = path := by
  rw [pathTo, pathUp_eq hf h (Nat.lt_succ_of_le (length_le_of_descend? hf h)), List.reverse_reverse]

theorem descend?_pathTo (hf : d.Forest) (h : d.Above n r) : d.descend? r (d.pathTo r n) = some n := by
  obtain ⟨path, hpath⟩ := exists_descend? hf h
  rw [pathTo_eq hf hpath, hpath]

/-! ### What follows a node and all below it -/

/-- Looking for what follows needs no more steps than the path has. -/
theorem behindFrom?_eq (hf : d.Forest) (h : d.descend? r path = some n) (hfuel : path.length < fuel) :
    d.behindFrom? r fuel n = d.behindFrom? r (path.length + 1) n := by
  induction path using List.reverseRecOn generalizing n fuel with
  | nil =>
    cases h
    obtain ⟨fuel, rfl⟩ := Nat.exists_eq_add_one_of_ne_zero (Nat.ne_of_gt hfuel)
    rw [behindFrom?, if_pos rfl, behindFrom?, if_pos rfl]
  | append_singleton path i ih =>
    obtain ⟨p, hp, hn⟩ := descend?_concat.1 h
    rw [List.length_append, List.length_singleton] at hfuel ⊢
    obtain ⟨fuel, rfl⟩ := Nat.exists_eq_add_one_of_ne_zero (Nat.ne_of_gt (Nat.zero_lt_of_lt hfuel))
    rw [behindFrom?, behindFrom?, hf.parent_of_child? hn]
    dsimp only
    rw [ih hp (Nat.lt_of_succ_lt_succ hfuel)]

theorem behind?_root : d.behind? r r = none := by
  rw [behind?, behindFrom?, if_pos rfl]

/-- Behind a node comes its next sibling, or else what comes behind its parent. -/
theorem behind?_of_children (hf : d.Forest) (h : d.descend? r path = some n)
    (hchildren : d.children n = front ++ c :: back) :
    d.behind? r c = back.head?.or (d.behind? r n) := by
  have hc : d.child? n front.length = some c := by
    rw [child?, hchildren, List.getElem?_append_right (Nat.le_refl _), Nat.sub_self, List.getElem?_cons_zero]
  have hlength := length_lt_of_descend? hf (descend?_concat.2 ⟨n, h, hc⟩)
    (has_of_parent? (hf.parent_of_child? hc))
  rw [List.length_append, List.length_singleton] at hlength
  rw [behind?, behindFrom?, if_neg (ne_root_of_child? hf h hc), nextSibling?_eq hf hchildren,
    hf.parent_of_child? hc]
  cases back with
  | nil =>
    dsimp only [List.head?_nil, Option.none_or]
    rw [behind?, behindFrom?_eq hf h (Nat.lt_of_succ_lt hlength),
      behindFrom?_eq hf h (Nat.lt_succ_of_lt (Nat.lt_of_succ_lt hlength))]
  | cons m back => rfl

theorem next?_eq (d : Document) (r n : NodeId) : d.next? r n = (d.children n).head?.or (d.behind? r n) := rfl

/-! ### The order of paths -/

theorem lt_append_singleton (path : List Nat) (i : Nat) : path < path ++ [i] := by
  have hlt : path ++ [] < path ++ [i] := List.append_left_lt (List.nil_lt_cons i [])
  rwa [List.append_nil] at hlt

/-- What comes behind a node comes after all that is below it. -/
theorem exists_lt_behind? (hf : d.Forest) (h : d.descend? r path = some n) (hm : d.behind? r n = some m) :
    ∃ path', d.descend? r path' = some m ∧ ∀ rest, path ++ rest < path' := by
  induction path using List.reverseRecOn generalizing n with
  | nil =>
    cases h
    rw [behind?_root] at hm
    cases hm
  | append_singleton path i ih =>
    obtain ⟨p, hp, hn⟩ := descend?_concat.1 h
    obtain ⟨hi, rfl⟩ := List.getElem?_eq_some_iff.1 (show (d.children p)[i]? = some n from hn)
    have hsplit : d.children p = (d.children p).take i ++ (d.children p)[i] :: (d.children p).drop (i + 1) := by
      rw [List.getElem_cons_drop hi, List.take_append_drop]
    rw [behind?_of_children hf hp hsplit] at hm
    cases hhead : ((d.children p).drop (i + 1)).head? with
    | some b =>
      rw [hhead] at hm
      cases hm
      refine ⟨path ++ [i + 1], descend?_concat.2 ⟨p, hp, ?_⟩, fun rest => ?_⟩
      · rwa [child?, ← List.head?_drop]
      · rw [List.append_assoc]
        exact List.append_left_lt (List.cons_lt_cons_iff.2 (.inl (Nat.lt_succ_self i)))
    | none =>
      rw [hhead] at hm
      obtain ⟨path', hpath', hlt⟩ := ih hp hm
      refine ⟨path', hpath', fun rest => ?_⟩
      rw [List.append_assoc]
      exact hlt ([i] ++ rest)

/-- The next node is below the root as well, and its path is greater. -/
theorem pathTo_lt_of_next? (hf : d.Forest) (h : d.Above n r) (hm : d.next? r n = some m) :
    d.Above m r ∧ d.pathTo r n < d.pathTo r m := by
  obtain ⟨path, hpath⟩ := exists_descend? hf h
  have hlater : ∃ path', d.descend? r path' = some m ∧ path < path' := by
    rw [next?_eq] at hm
    cases hhead : (d.children n).head? with
    | some c =>
      rw [hhead] at hm
      cases hm
      rw [List.head?_eq_getElem?] at hhead
      exact ⟨path ++ [0], descend?_concat.2 ⟨n, hpath, hhead⟩, lt_append_singleton path 0⟩
    | none =>
      rw [hhead] at hm
      obtain ⟨path', hpath', hlt⟩ := exists_lt_behind? hf hpath hm
      have := hlt []
      rw [List.append_nil] at this
      exact ⟨path', hpath', this⟩
  obtain ⟨path', hpath', hlt⟩ := hlater
  rw [pathTo_eq hf hpath, pathTo_eq hf hpath']
  exact ⟨above_of_descend? hf hpath', hlt⟩

/-! ### Walks -/

/-- From the first node on, and from each node to the next one, the nodes of a list are visited, and then the
last one comes. -/
def Course (next : NodeId → Option NodeId) : Option NodeId → List NodeId → Option NodeId → Prop
  | first, [], last => first = last
  | first, n :: visited, last => first = some n ∧ Course next (next n) visited last

variable {next : NodeId → Option NodeId} {first middle last : Option NodeId} {visited : List NodeId}

theorem Course.append {visited' : List NodeId} (h : Course next first visited middle)
    (h' : Course next middle visited' last) : Course next first (visited ++ visited') last := by
  induction visited generalizing first with
  | nil =>
    obtain rfl : first = middle := h
    exact h'
  | cons n visited ih => exact ⟨h.1, ih h.2⟩

/-- The nodes of an outline, as many levels as `fuel`. -/
def nodesFrom (d : Document) (fuel : Nat) (n : NodeId) : List NodeId :=
  (d.outlineFrom fuel 0 n).map Prod.snd

theorem map_snd_outlineFrom (d : Document) (fuel depth : Nat) (n : NodeId) :
    (d.outlineFrom fuel depth n).map Prod.snd = d.nodesFrom fuel n := by
  suffices h : ∀ fuel depth depth' n, (d.outlineFrom fuel depth n).map Prod.snd
      = (d.outlineFrom fuel depth' n).map Prod.snd from h fuel depth 0 n
  intro fuel
  induction fuel with
  | zero => exact fun _ _ _ => rfl
  | succ fuel ih =>
    intro depth depth' n
    rw [outlineFrom, outlineFrom, List.map_cons, List.map_cons, List.map_flatMap, List.map_flatMap]
    simp only [ih (depth + 1) (depth' + 1)]

@[simp] theorem nodesFrom_zero : d.nodesFrom 0 n = [n] := rfl

@[simp] theorem nodesFrom_succ :
    d.nodesFrom (fuel + 1) n = n :: (d.children n).flatMap (d.nodesFrom fuel) := by
  rw [nodesFrom, outlineFrom, List.map_cons, List.map_flatMap]
  simp only [map_snd_outlineFrom]

theorem above_of_mem_nodesFrom (hf : d.Forest) (h : m ∈ d.nodesFrom fuel n) : d.Above m n := by
  induction fuel generalizing n with
  | zero =>
    rw [List.mem_singleton.1 h]
    exact .self
  | succ fuel ih =>
    rw [nodesFrom_succ, List.mem_cons, List.mem_flatMap] at h
    rcases h with rfl | ⟨c, hc, hm⟩
    · exact .self
    · exact (ih hm).up (hf.parent_of_mem hc)

theorem mem_nodesFrom_of_descend? (h : d.descend? n path = some m) (hfuel : path.length ≤ fuel) :
    m ∈ d.nodesFrom fuel n := by
  induction path generalizing n fuel with
  | nil =>
    cases h
    cases fuel <;> simp
  | cons i path ih =>
    obtain ⟨fuel, rfl⟩ := Nat.exists_eq_add_one_of_ne_zero (Nat.ne_of_gt (Nat.zero_lt_of_lt hfuel))
    rw [descend?_cons, Option.bind_eq_some_iff] at h
    obtain ⟨c, hc, hm⟩ := h
    rw [nodesFrom_succ]
    exact List.mem_cons_of_mem _
      (List.mem_flatMap.2 ⟨c, child?_mem hc, ih hm (Nat.le_of_succ_le_succ hfuel)⟩)

/-- Going from each node to the next one visits a node and all below it, in the order of the outline. By
induction on the levels that are left, and then on the children that are. -/
theorem course_nodesFrom (hf : d.Forest) (h : d.descend? r path = some n)
    (hfuel : d.nodes.size ≤ path.length + fuel) :
    Course (d.next? r) (some n) (d.nodesFrom fuel n) (d.behind? r n) := by
  induction fuel generalizing n path with
  | zero =>
    have hnone : d.children n = [] := by
      rw [List.eq_nil_iff_forall_not_mem]
      intro c hc
      obtain ⟨i, hi⟩ := List.mem_iff_getElem?.1 hc
      have hlength := length_lt_of_descend? hf (descend?_concat.2 ⟨n, h, hi⟩)
        (has_of_parent? (hf.parent_of_mem hc))
      rw [List.length_append, List.length_singleton] at hlength
      omega
    refine ⟨rfl, ?_⟩
    show d.next? r n = _
    rw [next?_eq, hnone, List.head?_nil, Option.none_or]
  | succ fuel ih =>
    have hrow : ∀ back front : List NodeId, d.children n = front ++ back →
        Course (d.next? r) (back.head?.or (d.behind? r n)) (back.flatMap (d.nodesFrom fuel)) (d.behind? r n) := by
      intro back
      induction back with
      | nil =>
        intro front _
        rfl
      | cons c back ihrow =>
        intro front hchildren
        have hc : d.child? n front.length = some c := by
          rw [child?, hchildren, List.getElem?_append_right (Nat.le_refl _), Nat.sub_self,
            List.getElem?_cons_zero]
        have hbelow := ih (descend?_concat.2 ⟨n, h, hc⟩) (by
          rw [List.length_append, List.length_singleton]
          omega)
        rw [behind?_of_children hf h hchildren] at hbelow
        exact hbelow.append (ihrow (front ++ [c]) (by rw [hchildren, List.append_assoc, List.singleton_append]))
    rw [nodesFrom_succ]
    exact ⟨rfl, hrow (d.children n) [] rfl⟩

/-- On a walk paths increase. -/
theorem Course.isChain (hf : d.Forest) (h : Course (d.next? r) (some n) (n :: visited) last) (hn : d.Above n r) :
    ((n :: visited).map (d.pathTo r)).IsChain (· < ·) := by
  induction visited generalizing n with
  | nil => exact List.IsChain.singleton _
  | cons m visited ih =>
    obtain ⟨-, hm, hrest⟩ := h
    obtain ⟨habove, hlt⟩ := pathTo_lt_of_next? hf hn hm
    rw [List.map_cons, List.map_cons]
    exact List.IsChain.cons_cons hlt (ih ⟨rfl, hrest⟩ habove)

/-! ### Elements and comments -/

/-- What is found is the first element or comment among the nodes that come. -/
theorem nextMarkableFrom?_eq (h : Course (d.next? r) (d.next? r n) visited none) (hfuel : visited.length < fuel) :
    d.nextMarkableFrom? r fuel n = visited.find? d.isMarkable := by
  induction visited generalizing n fuel with
  | nil =>
    obtain ⟨fuel, rfl⟩ := Nat.exists_eq_add_one_of_ne_zero (Nat.ne_of_gt (Nat.zero_lt_of_lt hfuel))
    rw [nextMarkableFrom?, show d.next? r n = none from h]
    rfl
  | cons m visited ih =>
    obtain ⟨fuel, rfl⟩ := Nat.exists_eq_add_one_of_ne_zero (Nat.ne_of_gt (Nat.zero_lt_of_lt hfuel))
    rw [nextMarkableFrom?, h.1]
    dsimp only
    by_cases hm : d.isMarkable m = true
    · rw [if_pos hm, List.find?_cons_of_pos hm]
    · rw [if_neg hm, List.find?_cons_of_neg hm, ih h.2 (Nat.lt_of_succ_lt_succ hfuel)]

/-- Of the nodes that come, going from one element or comment to the next one visits these and no others. -/
theorem Course.markable (h : Course (d.next? r) (d.next? r n) visited none) (hlength : visited.length ≤ d.nodes.size) :
    Course (d.nextMarkable? r) (d.nextMarkable? r n) (visited.filter d.isMarkable) none := by
  have hfirst : d.nextMarkable? r n = visited.find? d.isMarkable :=
    nextMarkableFrom?_eq h (Nat.lt_succ_of_le hlength)
  induction visited generalizing n with
  | nil => exact hfirst
  | cons m visited ih =>
    have hshorter : visited.length ≤ d.nodes.size := Nat.le_of_succ_le hlength
    have hnext : d.nextMarkable? r m = visited.find? d.isMarkable :=
      nextMarkableFrom?_eq h.2 (Nat.lt_succ_of_le hshorter)
    have hrest := ih h.2 hshorter hnext
    by_cases hm : d.isMarkable m = true
    · rw [List.find?_cons_of_pos hm] at hfirst
      rw [List.filter_cons_of_pos hm]
      exact ⟨hfirst, hrest⟩
    · rw [List.find?_cons_of_neg hm] at hfirst
      rw [List.filter_cons_of_neg hm, hfirst, ← hnext]
      exact hrest

/-! ### The outline in order -/

/-- The nodes of an outline are a node and all below it. They come one after another, with increasing paths. -/
theorem outline_in_order (hf : d.Forest) (r : NodeId) :
    ∃ below, (d.outline r).map Prod.snd = r :: below ∧ Course (d.next? r) (d.next? r r) below none ∧
      ((r :: below).map (d.pathTo r)).Pairwise (· < ·) ∧ ∀ n, n ∈ r :: below ↔ d.Above n r := by
  have hnodes : (d.outline r).map Prod.snd = d.nodesFrom d.nodes.size r := rfl
  have hcourse := course_nodesFrom hf (descend?_nil (d := d) (r := r)) (Nat.le_add_left d.nodes.size _)
  have hmem : ∀ n, n ∈ d.nodesFrom d.nodes.size r ↔ d.Above n r := by
    intro n
    refine ⟨above_of_mem_nodesFrom hf, fun h => ?_⟩
    obtain ⟨path, hpath⟩ := exists_descend? hf h
    exact mem_nodesFrom_of_descend? hpath (length_le_of_descend? hf hpath)
  obtain ⟨below, hbelow⟩ : ∃ below, d.nodesFrom d.nodes.size r = r :: below := by
    cases d.nodes.size with
    | zero => exact ⟨[], rfl⟩
    | succ k => exact ⟨_, nodesFrom_succ⟩
  rw [hbelow, behind?_root] at hcourse
  rw [hbelow] at hmem
  exact ⟨below, hnodes.trans hbelow, hcourse.2, List.isChain_iff_pairwise.1 (hcourse.isChain hf .self), hmem⟩

/-- Going from a root to the next element or comment again and again visits the elements and comments of the
outline below the root, in their order, and then ends. These are all elements and comments below the root,
and none of them is visited twice; whatever stands beside or around the root is not met. The path that is found
for a node below the root leads to it, a path that leads to a node is the one that is found for it, and the paths
of the nodes that are visited increase from the empty path of the root on. -/
theorem walk_follows_outline (hf : d.Forest) (r : NodeId) :
    let visited := ((d.outline r).map Prod.snd).tail.filter d.isMarkable
    Course (d.nextMarkable? r) (d.nextMarkable? r r) visited none ∧
    (∀ n, n ∈ visited ↔ d.isMarkable n = true ∧ d.Above n r ∧ n ≠ r) ∧
    visited.Nodup ∧
    ((r :: visited).map (d.pathTo r)).Pairwise (· < ·) ∧
    (∀ n, d.Above n r → d.descend? r (d.pathTo r n) = some n) ∧
    ∀ path n, d.descend? r path = some n → d.pathTo r n = path := by
  intro visited
  obtain ⟨below, houtline, hcourse, hpaths, hmem⟩ := outline_in_order hf r
  have hvisited : visited = below.filter d.isMarkable := by
    show ((d.outline r).map Prod.snd).tail.filter d.isMarkable = _
    rw [houtline, List.tail_cons]
  have hnodup : (r :: below).Nodup := by
    refine List.Nodup.of_map (d.pathTo r) (hpaths.imp fun hlt he => ?_)
    exact List.lt_irrefl _ (he ▸ hlt)
  have hne : ∀ n ∈ below, n ≠ r := fun n hn he => (List.nodup_cons.1 hnodup).1 (he ▸ hn)
  have hlength : below.length ≤ d.nodes.size := by
    refine length_le_size (List.nodup_cons.1 hnodup).2 fun n hn => ?_
    rcases ((hmem n).1 (List.mem_cons_of_mem r hn)).eq_or_of_parent with he | ⟨p, hp, -⟩
    · exact absurd he.symm (hne n hn)
    · exact has_of_parent? hp
  rw [hvisited]
  refine ⟨hcourse.markable hlength, fun n => ?_, (List.nodup_cons.1 hnodup).2.filter _, ?_,
    fun n => descend?_pathTo hf, fun path n => pathTo_eq hf⟩
  · rw [List.mem_filter, ← hmem, List.mem_cons]
    constructor
    · exact fun h => ⟨h.2, .inr h.1, hne n h.1⟩
    · exact fun h => ⟨h.2.1.resolve_left h.2.2, h.1⟩
  · exact hpaths.sublist ((List.filter_sublist.cons_cons r).map (d.pathTo r))

/-- A section between a text and a footer, all in one element. In the section there are a text, a paragraph with a
comment and a text, and an emphasis. -/
def sectionInMain : Document :=
  let kinds : List NodeKind := [.element "main" .html, .text, .element "section" .html, .text, .element "p" .html,
    .comment, .text, .element "em" .html, .element "footer" .html]
  let made := kinds.foldl (fun d kind => (d.create kind "").2) Document.empty
  let links : List (NodeId × NodeId) := [(⟨4⟩, ⟨5⟩), (⟨4⟩, ⟨6⟩), (⟨2⟩, ⟨3⟩), (⟨2⟩, ⟨4⟩), (⟨2⟩, ⟨7⟩), (⟨0⟩, ⟨1⟩),
    (⟨0⟩, ⟨2⟩), (⟨0⟩, ⟨8⟩)]
  links.foldl (fun d link => d.attach link.1 link.2 none) made

theorem forest_sectionInMain : sectionInMain.Forest := by
  have hmain := forest_empty.create (.element "main" .html) ""
  have hmade := (((((((hmain.create .text "").create (.element "section" .html) "").create .text "").create
    (.element "p" .html) "").create .comment "").create .text "").create (.element "em" .html) "").create
    (.element "footer" .html) ""
  refine (((((((hmade.attach ?_ none).attach ?_ none).attach ?_ none).attach ?_ none).attach ?_ none).attach ?_
    none).attach ?_ none).attach ?_ none
  all_goals exact .of_root (by decide) (by decide) (by decide) (by decide) (by decide) (by decide)

/-- From the section on, the paragraph, its comment and the emphasis are visited, and the footer is not. -/
theorem walk_sectionInMain :
    sectionInMain.Forest ∧
    Course (sectionInMain.nextMarkable? ⟨2⟩) (some ⟨4⟩) [⟨4⟩, ⟨5⟩, ⟨7⟩] none ∧
    sectionInMain.nextSibling? ⟨2⟩ = some ⟨8⟩ ∧
    sectionInMain.descend? ⟨2⟩ [1, 0] = some ⟨5⟩ ∧ sectionInMain.pathTo ⟨2⟩ ⟨5⟩ = [1, 0] := by
  have hwalk := walk_follows_outline forest_sectionInMain ⟨2⟩
  have hcomment : sectionInMain.descend? ⟨2⟩ [1, 0] = some ⟨5⟩ := by decide +kernel
  have hfirst : sectionInMain.nextMarkable? ⟨2⟩ ⟨2⟩ = some ⟨4⟩ := by decide +kernel
  have hvisited : ((sectionInMain.outline ⟨2⟩).map Prod.snd).tail.filter sectionInMain.isMarkable
      = [⟨4⟩, ⟨5⟩, ⟨7⟩] := by decide +kernel
  rw [hfirst, hvisited] at hwalk
  exact ⟨forest_sectionInMain, hwalk.1, by decide +kernel, hcomment, hwalk.2.2.2.2.2 [1, 0] ⟨5⟩ hcomment⟩

end LiveMarkup.Document
