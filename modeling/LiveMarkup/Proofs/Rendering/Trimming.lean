import LiveMarkup.Document.Attributes
import LiveMarkup.Proofs.Document.Standing
/-!
# What holes add to content

A `Trimming` says what is added to some content, and where: trees in front of a node, attributes of an
element, or other content for it. Places are identities of nodes for plants, and paths for markup.
Putting a trimming on is a graft (`Trimming.put`), so that whatever happens to a plant that is trimmed
already is a change of the trimming, and what a plant shows in the end is what the same trimming adds to
the markup (`trees_graftAll_put`).
-/

namespace LiveMarkup

open Markup (Tree Tag Namespace)

/-- What is added to some content: trees in front of nodes, attributes behind those of elements, and
content in place of that of elements. -/
structure Trimming (K T : Type) where
  before : K → List T
  attributes : K → List (String × String)
  content : K → Option (List T)

namespace Trimming

variable {K T : Type}

/-- Adds nothing. -/
def none : Trimming K T :=
  ⟨fun _ => [], fun _ => [], fun _ => Option.none⟩

/-- Adds what two trimmings add. -/
def join (s t : Trimming K T) : Trimming K T where
  before k := s.before k ++ t.before k
  attributes k := s.attributes k ++ t.attributes k
  content k := (s.content k).or (t.content k)

/-- Adds what several trimmings add, in order. -/
def joinAll : List (Trimming K T) → Trimming K T
  | [] => none
  | t :: rest => t.join (joinAll rest)

theorem join_none (t : Trimming K T) : t.join none = t := by
  simp [join, none]

theorem none_join (t : Trimming K T) : none.join t = t := by
  simp [join, none]

theorem join_assoc (s t u : Trimming K T) : (s.join t).join u = s.join (t.join u) := by
  simp [join, Option.or_assoc]

/-- Puts trees in front of one place. -/
def leading [DecidableEq K] (k : K) (trees : List T) : Trimming K T :=
  { none with before := fun j => if j = k then trees else [] }

/-- Adds attributes at one place. -/
def adorning [DecidableEq K] (k : K) (pairs : List (String × String)) : Trimming K T :=
  { none with attributes := fun j => if j = k then pairs else [] }

/-- Gives one place other content. -/
def filling [DecidableEq K] (k : K) (trees : List T) : Trimming K T :=
  { none with content := fun j => if j = k then some trees else Option.none }

theorem leading_nil [DecidableEq K] (k : K) : (leading k [] : Trimming K T) = none := by
  simp [leading, none]

theorem adorning_nil [DecidableEq K] (k : K) : (adorning k [] : Trimming K T) = none := by
  simp [adorning, none]

theorem leading_join [DecidableEq K] (k : K) (ts us : List T) :
    (leading k ts).join (leading k us) = leading k (ts ++ us) := by
  have hbefore : ∀ j, (if j = k then ts else []) ++ (if j = k then us else [])
      = if j = k then ts ++ us else [] := by
    intro j
    split <;> simp
  simp [leading, join, none, hbefore]

end Trimming

/-! ### Trimming markup -/

/-- A name as it is spelled on elements of a namespace. -/
def Markup.Namespace.spell : Namespace → String → String
  | .svg, name => name
  | .html, name => Text.lowerString name

mutual

/-- A tree with what is added to it; `path` leads to the tree. -/
def Markup.Tree.trim (t : Trimming (List Nat) Tree) (path : List Nat) : Tree → List Tree
  | .element tag children =>
    t.before path ++
      [.element
        { tag with
          attributes := tag.attributes
            ++ (t.attributes path).map fun a => (tag.space.spell a.1, a.2) }
        ((t.content path).getD (trimAll t path 0 children))]
  | .text data => t.before path ++ [.text data]
  | .comment data => t.before path ++ [.comment data]

/-- The children from number `i` on of the node that `path` leads to, with what is added to them. -/
def Markup.Tree.trimAll (t : Trimming (List Nat) Tree) (path : List Nat) (i : Nat) :
    List Tree → List Tree
  | [] => []
  | tree :: rest => tree.trim t (path ++ [i]) ++ trimAll t path (i + 1) rest

end

/-! ### Trimming plants -/

namespace Trimming

variable {s t : Trimming NodeId Plant} {n : NodeId} {q : Plant} {ps new : List Plant}
  {f : Plant → List Plant}

/-- A node with what is added to it. -/
def put (t : Trimming NodeId Plant) : Plant → List Plant
  | .element id tag children =>
    t.before id ++
      [.element id { tag with attributes := tag.attributes ++ t.attributes id }
        ((t.content id).getD children)]
  | .text id data => t.before id ++ [.text id data]
  | .comment id data => t.before id ++ [.comment id data]

/-- A node is in nothing that a trimming adds. -/
structure Avoids (t : Trimming NodeId Plant) (n : NodeId) : Prop where
  before : ∀ k, n ∉ Plant.idsAll (t.before k)
  content : ∀ k ps, t.content k = some ps → n ∉ Plant.idsAll ps

theorem Avoids.join (hs : s.Avoids n) (ht : t.Avoids n) : (s.join t).Avoids n where
  before k hk := by
    rw [Trimming.join, Plant.idsAll_append, List.mem_append] at hk
    exact hk.elim (hs.before k) (ht.before k)
  content k ps hk := by
    rcases Option.or_eq_some_iff.1 hk with hk | ⟨-, hk⟩
    · exact hs.content k ps hk
    · exact ht.content k ps hk

theorem avoids_leading {k : NodeId} (h : n ∉ Plant.idsAll ps) :
    (leading k ps : Trimming NodeId Plant).Avoids n where
  before j hj := by
    rw [leading] at hj
    dsimp only at hj
    split at hj
    · exact h hj
    · rw [Plant.idsAll_nil] at hj
      cases hj
  content j qs hj := by cases hj

theorem avoids_adorning {k : NodeId} {pairs : List (String × String)} :
    (adorning k pairs : Trimming NodeId Plant).Avoids n :=
  ⟨fun _ => by simp [adorning, none], fun _ _ h => by cases h⟩

theorem avoids_filling {k : NodeId} (h : n ∉ Plant.idsAll ps) :
    (filling k ps : Trimming NodeId Plant).Avoids n where
  before _ := by simp [filling, none]
  content j qs hj := by
    rw [filling] at hj
    dsimp only at hj
    split at hj
    · cases hj
      exact h
    · cases hj

/-- What a trimming adds, changed. -/
def map (f : List Plant → List Plant) (t : Trimming NodeId Plant) : Trimming NodeId Plant where
  before k := f (t.before k)
  attributes := t.attributes
  content k := (t.content k).map f

theorem put_none : (none : Trimming NodeId Plant).put q = [q] := by
  cases q with
  | element id tag children => simp [put, none]
  | text | comment => rfl

theorem graftAll_put_none : Plant.graftAll (none : Trimming NodeId Plant).put ps = ps :=
  Plant.graftAll_eq_self fun _ _ => put_none

/-- What is put in front of a node comes before it, and the node stays the same one. -/
theorem map_id_graft_put (q : Plant) :
    (q.graft t.put).map Plant.id = (t.before q.id).map Plant.id ++ [q.id] := by
  cases q with
  | element id tag children =>
    rw [Plant.graft, put, List.map_append]
    rfl
  | text id data =>
    rw [Plant.graft, put, List.map_append]
    rfl
  | comment id data =>
    rw [Plant.graft, put, List.map_append]
    rfl

/-- Where nothing is put in front of the topmost nodes, they stay what they are. -/
theorem map_id_graftAll_put (h : ∀ n ∈ ps.map Plant.id, t.before n = []) :
    (Plant.graftAll t.put ps).map Plant.id = ps.map Plant.id := by
  induction ps with
  | nil => rw [Plant.graftAll_nil]
  | cons q ps ih =>
    rw [List.map_cons, List.forall_mem_cons] at h
    rw [Plant.graftAll_cons, List.map_append, map_id_graft_put, h.1, ih h.2]
    rfl

theorem sublist_map_id_graftAll_put :
    (ps.map Plant.id).Sublist ((Plant.graftAll t.put ps).map Plant.id) := by
  induction ps with
  | nil => exact List.nil_sublist _
  | cons q ps ih =>
    rw [Plant.graftAll_cons, List.map_append, map_id_graft_put, List.append_assoc, List.map_cons]
    exact (ih.cons_cons q.id).trans (List.sublist_append_right ..)

theorem mem_map_id_graftAll_put (h : n ∈ ps.map Plant.id) :
    n ∈ (Plant.graftAll t.put ps).map Plant.id :=
  sublist_map_id_graftAll_put.subset h

/-- Nothing is put behind the last node. -/
theorem getLast?_map_id_graftAll_put :
    ((Plant.graftAll t.put ps).map Plant.id).getLast? = (ps.map Plant.id).getLast? := by
  induction ps with
  | nil => rw [Plant.graftAll_nil]
  | cons q ps ih =>
    rw [Plant.graftAll_cons, List.map_append, map_id_graft_put, List.getLast?_append, ih,
      List.getLast?_concat, List.map_cons, List.getLast?_cons]
    cases (ps.map Plant.id).getLast? <;> rfl

/-- A graft that leaves the nodes of some content alone changes what has been added to it. -/
theorem graftAll_put_of_inner (hf : ∀ q : Plant, q.id ∈ Plant.idsAll ps → f q = [q]) :
    Plant.graftAll f (Plant.graftAll t.put ps) = Plant.graftAll (t.map (Plant.graftAll f)).put ps := by
  refine Plant.graftAll_graftAll ?_ ?_ ?_
  · intro id tag children hid
    have hcontent : Plant.graftAll f ((t.content id).getD children)
        = ((t.content id).map (Plant.graftAll f)).getD (Plant.graftAll f children) := by
      cases t.content id <;> rfl
    rw [put, Plant.graftAll_append, Plant.graftAll_cons, Plant.graft, hf (.element id _ _) hid,
      Plant.graftAll_nil, hcontent]
    rfl
  · intro id data hid
    rw [put, Plant.graftAll_append, Plant.graftAll_cons, Plant.graft, hf (.text id data) hid,
      Plant.graftAll_nil]
    rfl
  · intro id data hid
    rw [put, Plant.graftAll_append, Plant.graftAll_cons, Plant.graft, hf (.comment id data) hid,
      Plant.graftAll_nil]
    rfl

/-- A graft that leaves all nodes other than `n` alone does nothing to what is added, if `n` is not in
it. -/
theorem Avoids.graftAll_eq (ht : t.Avoids n) (hf : ∀ q : Plant, q.id ≠ n → f q = [q]) :
    (∀ k, Plant.graftAll f (t.before k) = t.before k) ∧
      ∀ k ps, t.content k = some ps → Plant.graftAll f ps = ps := by
  have hself : ∀ qs, n ∉ Plant.idsAll qs → Plant.graftAll f qs = qs := fun qs hqs =>
    Plant.graftAll_eq_self fun q hq => hf q fun he => hqs (he ▸ hq)
  exact ⟨fun k => hself _ (ht.before k), fun k ps hk => hself ps (ht.content k ps hk)⟩

/-- What a graft that is about one node makes of content that is trimmed, if that node is not in what is
added. -/
theorem graftAll_put {u : Trimming NodeId Plant} (ht : t.Avoids n)
    (hf : ∀ q : Plant, q.id ≠ n → f q = [q])
    (helement : ∀ id tag children, t.before id ++
      f (.element id { tag with attributes := tag.attributes ++ t.attributes id }
        ((t.content id).getD children)) = u.put (.element id tag children))
    (htext : ∀ id data, t.before id ++ f (.text id data) = u.put (.text id data))
    (hcomment : ∀ id data, t.before id ++ f (.comment id data) = u.put (.comment id data)) :
    Plant.graftAll f (Plant.graftAll t.put ps) = Plant.graftAll u.put ps := by
  obtain ⟨hbefore, hcontent⟩ := ht.graftAll_eq hf
  refine Plant.graftAll_graftAll ?_ ?_ ?_
  · intro id tag children _
    have hchildren : Plant.graftAll f ((t.content id).getD children)
        = (t.content id).getD (Plant.graftAll f children) := by
      cases hk : t.content id with
      | none => rfl
      | some qs => exact hcontent id qs hk
    rw [← helement, put, Plant.graftAll_append, Plant.graftAll_cons, Plant.graft, Plant.graftAll_nil,
      List.append_nil, hbefore, hchildren]
  · intro id data _
    rw [← htext, put, Plant.graftAll_append, Plant.graftAll_cons, Plant.graft, Plant.graftAll_nil,
      List.append_nil, hbefore]
  · intro id data _
    rw [← hcomment, put, Plant.graftAll_append, Plant.graftAll_cons, Plant.graft,
      Plant.graftAll_nil, List.append_nil, hbefore]

/-- Nodes in front of `n` come behind those that are there already. -/
theorem graftAll_before_put (ht : t.Avoids n) :
    Plant.graftAll (Plant.before n new) (Plant.graftAll t.put ps)
      = Plant.graftAll (t.join (leading n new)).put ps := by
  have hone : ∀ q : Plant, t.before q.id ++ Plant.before n new q
      = (t.join (leading n new)).before q.id ++ [q] := by
    intro q
    by_cases hq : q.id = n <;> simp [Plant.before, join, leading, hq]
  refine graftAll_put ht (fun q hq => if_neg hq) (fun id tag children => ?_) (fun id data => ?_)
    fun id data => ?_
  · rw [show t.before id = t.before (Plant.element id { tag with
      attributes := tag.attributes ++ t.attributes id } ((t.content id).getD children)).id from rfl,
      hone]
    simp [put, join, leading, none]
  · exact hone (.text id data)
  · exact hone (.comment id data)

/-- Attributes come behind those that are there already. -/
theorem graftAll_adorn_put (ht : t.Avoids n) (pairs : List (String × String)) :
    Plant.graftAll (Plant.adorn n (· ++ pairs)) (Plant.graftAll t.put ps)
      = Plant.graftAll (t.join (adorning n pairs)).put ps := by
  refine graftAll_put ht (fun q hq => ?_) (fun id tag children => ?_) (fun id data => ?_)
    fun id data => ?_
  · cases q with
    | element id tag children => rw [Plant.adorn, if_neg (by exact hq)]
    | text | comment => rfl
  · by_cases hid : id = n <;> simp [Plant.adorn, put, join, adorning, none, hid]
  · simp [Plant.adorn, put, join, adorning, none]
  · simp [Plant.adorn, put, join, adorning, none]

/-- Content takes the place of that which was there, if nothing has been put there before. -/
theorem graftAll_fill_put (ht : t.Avoids n) (hn : t.content n = Option.none) :
    Plant.graftAll (Plant.fill n new) (Plant.graftAll t.put ps)
      = Plant.graftAll (t.join (filling n new)).put ps := by
  refine graftAll_put ht (fun q hq => ?_) (fun id tag children => ?_) (fun id data => ?_)
    fun id data => ?_
  · cases q with
    | element id tag children => rw [Plant.fill, if_neg (by exact hq)]
    | text | comment => rfl
  · by_cases hid : id = n
    · subst hid
      simp [Plant.fill, put, join, filling, none, hn]
    · simp [Plant.fill, put, join, filling, none, hid]
  · simp [Plant.fill, put, join, filling, none]
  · simp [Plant.fill, put, join, filling, none]

/-- Two trimmings add the same to a node, one by its identity and the other one by its path. -/
structure Agrees (s : Trimming NodeId Plant) (t : Trimming (List Nat) Tree) (q : Plant)
    (path : List Nat) : Prop where
  before : Plant.trees (s.before q.id) = t.before path
  attributes : ∀ id tag children, q = .element id tag children →
    s.attributes id = (t.attributes path).map fun a => (tag.space.spell a.1, a.2)
  content : (s.content q.id).map Plant.trees = t.content path

/-- What a trimmed plant shows is the trimmed markup. -/
theorem trees_graft_put {s : Trimming NodeId Plant} {t : Trimming (List Nat) Tree} :
    (∀ (q : Plant) (path : List Nat),
      (∀ ρ r, q.at? ρ = some r → s.Agrees t r (path ++ ρ)) →
      Plant.trees (q.graft s.put) = q.tree.trim t path) ∧
    ∀ (qs : List Plant) (path : List Nat) (i : Nat),
      (∀ j ρ r, Plant.follow qs (j :: ρ) = some r → s.Agrees t r (path ++ (i + j) :: ρ)) →
      Plant.trees (Plant.graftAll s.put qs) = Markup.Tree.trimAll t path i (Plant.trees qs) := by
  refine Plant.induct ?_ ?_ ?_ ?_ ?_
  · intro id tag children ih path h
    have hself := h [] _ rfl
    rw [List.append_nil] at hself
    have hrec := ih path 0 fun j ρ r hr => by
      rw [Nat.zero_add]
      exact h (j :: ρ) r hr
    have hcontent : Plant.trees ((s.content id).getD (Plant.graftAll s.put children))
        = (t.content path).getD (Markup.Tree.trimAll t path 0 (Plant.trees children)) := by
      have hc := hself.content
      rw [Plant.id_element] at hc
      rw [← hc]
      cases s.content id with
      | none => exact hrec
      | some qs => rfl
    rw [Plant.graft, put, Plant.trees_append, Plant.trees_cons, Plant.trees_nil, Plant.tree,
      Plant.tree, Markup.Tree.trim, hself.attributes id tag children rfl, hcontent]
    exact congrArg (· ++ _) hself.before
  · intro id data path h
    have hself := h [] _ rfl
    rw [List.append_nil] at hself
    rw [Plant.graft, put, Plant.trees_append, Plant.trees_cons, Plant.trees_nil, Plant.tree,
      Markup.Tree.trim]
    exact congrArg (· ++ _) hself.before
  · intro id data path h
    have hself := h [] _ rfl
    rw [List.append_nil] at hself
    rw [Plant.graft, put, Plant.trees_append, Plant.trees_cons, Plant.trees_nil, Plant.tree,
      Markup.Tree.trim]
    exact congrArg (· ++ _) hself.before
  · intro path i _
    rw [Plant.graftAll_nil, Plant.trees_nil, Markup.Tree.trimAll]
  · intro q qs ihq ihqs path i h
    have hq := ihq (path ++ [i]) fun ρ r hr => by
      rw [List.append_assoc]
      exact h 0 ρ r hr
    have hqs := ihqs path (i + 1) fun j ρ r hr => by
      have hshift := h (j + 1) ρ r hr
      rwa [show i + 1 + j = i + (j + 1) by omega]
    rw [Plant.graftAll_cons, Plant.trees_append, hq, hqs, Plant.trees_cons, Markup.Tree.trimAll]

theorem trees_graftAll_put {s : Trimming NodeId Plant} {t : Trimming (List Nat) Tree}
    (h : ∀ path r, Plant.follow ps path = some r → s.Agrees t r path) :
    Plant.trees (Plant.graftAll s.put ps) = Markup.Tree.trimAll t [] 0 (Plant.trees ps) :=
  trees_graft_put.2 ps [] 0 fun j ρ r hr => by
    rw [List.nil_append, Nat.zero_add]
    exact h (j :: ρ) r hr

/-- A node stays in sight if no node above it gets other content. -/
theorem mem_graft_put_of_at? {s : Trimming NodeId Plant} {path : List Nat} {r : Plant}
    (h : q.at? path = some r)
    (habove : ∀ ρ r', ρ <+: path → ρ ≠ path → q.at? ρ = some r' → s.content r'.id = Option.none) :
    r.id ∈ Plant.idsAll (q.graft s.put) := by
  have hself : ∀ q : Plant, q.id ∈ Plant.idsAll (q.graft s.put) := by
    intro q
    cases q <;> simp [Plant.graft, put, Plant.ids]
  induction path generalizing q with
  | nil =>
    cases h
    exact hself _
  | cons i path ih =>
    obtain ⟨c, hc, hr⟩ := Plant.follow_cons.1 (Plant.at?_cons ▸ h)
    have hmem := ih hr fun ρ r' hρ hne hr' => by
      refine habove (i :: ρ) r' (List.cons_prefix_cons.2 ⟨rfl, hρ⟩) (by simpa using hne) ?_
      exact Plant.follow_cons.2 ⟨c, hc, hr'⟩
    have hnone := habove [] q (List.nil_prefix) (by simp) rfl
    cases q with
    | element id tag children =>
      rw [Plant.id_element] at hnone
      have hall : r.id ∈ Plant.idsAll (Plant.graftAll s.put children) := by
        obtain ⟨x, hx, hrx⟩ := Plant.mem_idsAll.1 hmem
        exact Plant.mem_idsAll.2
          ⟨x, Plant.mem_graftAll.2 ⟨c, List.mem_of_getElem? hc, hx⟩, hrx⟩
      rw [Plant.graft, put, hnone, Plant.idsAll_append, Plant.idsAll_cons, Plant.ids]
      simp [hall]
    | text id data => simp [Plant.children] at hc
    | comment id data => simp [Plant.children] at hc

theorem mem_graftAll_put_of_follow {s : Trimming NodeId Plant} {path : List Nat} {r : Plant}
    (h : Plant.follow ps path = some r)
    (habove : ∀ ρ r', ρ <+: path → ρ ≠ path → Plant.follow ps ρ = some r' →
      s.content r'.id = Option.none) :
    r.id ∈ Plant.idsAll (Plant.graftAll s.put ps) := by
  cases path with
  | nil => cases h
  | cons i path =>
    obtain ⟨q, hq, hr⟩ := Plant.follow_cons.1 h
    have hmem := mem_graft_put_of_at? hr fun ρ r' hρ hne hr' => by
      refine habove (i :: ρ) r' (List.cons_prefix_cons.2 ⟨rfl, hρ⟩) (by simpa using hne) ?_
      exact Plant.follow_cons.2 ⟨q, hq, hr'⟩
    obtain ⟨x, hx, hrx⟩ := Plant.mem_idsAll.1 hmem
    exact Plant.mem_idsAll.2 ⟨x, Plant.mem_graftAll.2 ⟨q, List.mem_of_getElem? hq, hx⟩, hrx⟩

end Trimming

end LiveMarkup
