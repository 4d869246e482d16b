import LiveMarkup.Template.Compiled
import LiveMarkup.Proofs.Document.Plant
import LiveMarkup.Proofs.Markup.Regularity
/-!
# Where the holes of a template are

The search for markers visits each node once in document order, and records a hole where it is. So the
path of a hole leads to what the hole was marked by: a comment that is its marker, an element that its
marker attribute has been taken off, or an element whose text is its marker comment
(`addressed_compilation`). The holes are in document order, and only the attributes of an element have a
path in common with a hole behind them.
-/

namespace LiveMarkup

open Markup (Tree Tag)

/-- The tree that some child indices lead to from the top of a tree. -/
def Markup.Tree.at? (t : Tree) : List Nat → Option Tree
  | [] => some t
  | i :: path => t.children[i]?.bind fun c => c.at? path

/-- The tree that some child indices lead to, the first of them to one of some trees. -/
def Markup.Tree.follow (trees : List Tree) : List Nat → Option Tree
  | [] => none
  | i :: path => trees[i]?.bind fun t => t.at? path

namespace Plant

variable {ps : List Plant} {q : Plant}

theorem trees_eq_map (ps : List Plant) : trees ps = ps.map tree := by
  induction ps with
  | nil => simp
  | cons q rest ih => simp [ih]

theorem children_tree (q : Plant) : q.tree.children = q.children.map tree := by
  cases q with
  | element id tag children =>
    rw [tree, Tree.children, trees_eq_map]
    rfl
  | text | comment => rw [tree]; rfl

theorem at?_tree (q : Plant) (path : List Nat) : q.tree.at? path = (q.at? path).map tree := by
  induction path generalizing q with
  | nil => rfl
  | cons i path ih =>
    rw [Tree.at?, at?, children_tree, List.getElem?_map]
    cases q.children[i]? with
    | none => rfl
    | some c => exact ih c

theorem follow_trees (ps : List Plant) (path : List Nat) :
    Tree.follow (trees ps) path = (follow ps path).map tree := by
  cases path with
  | nil => rfl
  | cons i path =>
    rw [Tree.follow, follow, trees_eq_map, List.getElem?_map]
    cases ps[i]? with
    | none => rfl
    | some q => exact at?_tree q path

end Plant

/-- A hole of a kind can be at the top of a tree. -/
def HoleKind.Suits : HoleKind → Tree → Prop
  | child, .comment _ => True
  | attr _, .element .. => True
  | text, .element .. => True
  | _, _ => False

/-- A hole in front of another one is somewhere else, unless it is an attribute. -/
def Hole.Precedes (h h' : Hole) : Prop :=
  h.path = h'.path → ∃ name, h.kind = .attr name

/-- A hole in front of another one is further ahead in document order, or it is an attribute of the
element that the other one is an attribute or the text of. -/
def Hole.Before (h h' : Hole) : Prop :=
  h.path < h'.path ∨ h.path = h'.path ∧ (∃ name, h.kind = .attr name) ∧ h'.kind ≠ .child

/-- The text of a `style` or `textarea` element is nothing but the marker comment of hole `i`. -/
def Template.IsTextMarker (i : Nat) (tag : Tag) (children : List Tree) : Prop :=
  (Text.sameLetters tag.name.toList "style".toList = true ∨
      Text.sameLetters tag.name.toList "textarea".toList = true) ∧
    Text.trim (Markup.textContentAll children).toList = Template.markerComment i

/-- What hole `i` leads to once its marker has been found: the comment and the text are left as they
are, and the attribute is gone. -/
def HoleKind.Marks (i : Nat) : HoleKind → Tree → Prop
  | child, .comment data => data = marker i
  | attr _, .element tag _ => marker i ∉ tag.attributes.map Prod.fst
  | text, .element tag children =>
    Template.IsTextMarker i tag children ∧ marker i ∉ tag.attributes.map Prod.fst
  | _, _ => False

theorem HoleKind.Marks.suits {i : Nat} {kind : HoleKind} {t : Tree} (h : kind.Marks i t) :
    kind.Suits t := by
  cases kind <;> cases t <;> trivial

theorem Hole.Before.precedes {h h' : Hole} (hb : h.Before h') : h.Precedes h' := by
  intro he
  rcases hb with hlt | ⟨-, hattr, -⟩
  · rw [he] at hlt
    exact absurd hlt (List.lt_irrefl h'.path)
  · exact hattr

/-- Each hole of a compiled template leads to what it was marked by, and the holes are in document order.
-/
structure Compiled.Addressed (c : Compiled) : Prop where
  leads : ∀ (i : Nat) (h : Hole), c.holes[i]? = some h →
    ∃ t, Tree.follow c.content h.path = some t ∧ h.kind.Marks i t
  order : c.holes.Pairwise Hole.Before

/-- The holes of a compiled template are in its content. -/
structure Compiled.Coherent (c : Compiled) : Prop where
  leads : ∀ h ∈ c.holes, ∃ t, Tree.follow c.content h.path = some t ∧ h.kind.Suits t
  apart : c.holes.Pairwise Hole.Precedes

theorem Compiled.Addressed.coherent {c : Compiled} (h : c.Addressed) : c.Coherent where
  leads hole hmem := by
    obtain ⟨i, hi⟩ := List.getElem?_of_mem hmem
    obtain ⟨t, hfollow, hmarks⟩ := h.leads i hole hi
    exact ⟨t, hfollow, hmarks.suits⟩
  apart := h.order.imp Hole.Before.precedes

namespace Template

/-- The holes that a search has found since another one. -/
structure Search.Finds (s s' : Search) (holes : List Hole) : Prop where
  expected : s'.expected = s.expected
  found : s'.found = holes.reverse ++ s.found

namespace Search

variable {s s' s'' : Search} {holes holes' : List Hole}

theorem Finds.refl (s : Search) : s.Finds s [] :=
  ⟨rfl, rfl⟩

theorem Finds.trans (h : s.Finds s' holes) (h' : s'.Finds s'' holes') :
    s.Finds s'' (holes ++ holes') := by
  refine ⟨h'.expected.trans h.expected, ?_⟩
  rw [h'.found, h.found, List.reverse_append, List.append_assoc]

theorem finds_record (s : Search) (kind : HoleKind) (path : List Nat) :
    s.Finds (s.record kind path) [⟨kind, path⟩] :=
  ⟨rfl, rfl⟩

theorem Finds.length (h : s.Finds s' holes) :
    s'.found.length = s.found.length + holes.length := by
  rw [h.found, List.length_append, List.length_reverse, Nat.add_comm]

/-- Each hole has a number. -/
theorem exists_number {h : Hole} (hh : h ∈ holes) (n : Nat) : ∃ i, (h, i) ∈ holes.zipIdx n := by
  rw [← List.zipIdx_map_fst n holes, List.mem_map] at hh
  obtain ⟨⟨_, i⟩, hmem, rfl⟩ := hh
  exact ⟨i, hmem⟩

/-- The holes of two searches one after another, numbered as they are found. -/
theorem Finds.zipIdx_append (h : s.Finds s' holes) (holes' : List Hole) :
    (holes ++ holes').zipIdx s.found.length
      = holes.zipIdx s.found.length ++ holes'.zipIdx s'.found.length := by
  rw [List.zipIdx_append, h.length]

end Search

variable {path : List Nat} {attributes : List (String × String)} {s : Search} {tag : Tag}
  {children : List Tree}

/-- Of attributes with different names no other one has the name of one of them. -/
theorem notMem_erase_of_nodup {a : String × String} (hnodup : (attributes.map Prod.fst).Nodup)
    (ha : a ∈ attributes) : a.1 ∉ (attributes.erase a).map Prod.fst := by
  intro hmem
  obtain ⟨b, hb, hname⟩ := List.mem_map.1 hmem
  obtain ⟨hne, hb⟩ := (hnodup.of_map _).mem_erase_iff.1 hb
  exact hne (List.inj_on_of_nodup_map hnodup hb ha hname)

/-- Once enough holes have been found, a tree is left as it is. -/
theorem searchTree_of_isDone {t : Tree} (h : s.isDone = true) : searchTree path s t = (t, s) := by
  cases t with
  | element tag children => rw [searchTree, if_pos h]
  | text data => rw [searchTree]
  | comment data => rw [searchTree, h]; rfl

theorem searchAll_of_isDone (h : s.isDone = true) (i : Nat) (ts : List Tree) :
    searchAll path i s ts = (ts, s) := by
  induction ts generalizing i with
  | nil => rw [searchAll]
  | cons t ts ih =>
    rw [searchAll, searchTree_of_isDone h]
    dsimp only
    rw [ih (i + 1)]

/-- Marker attributes are taken off in the order of the holes, and what is looked for then is not there.
-/
theorem finds_takeMarkers (path : List Nat) (s : Search) (hnodup : (attributes.map Prod.fst).Nodup) :
    ∃ holes, s.Finds (takeMarkers path attributes s).2 holes ∧
      (takeMarkers path attributes s).1 ⊆ attributes ∧
      (takeMarkers path attributes s).2.wanted ∉ (takeMarkers path attributes s).1.map Prod.fst ∧
      ∀ e ∈ holes.zipIdx s.found.length, e.1.path = path ∧ (∃ name, e.1.kind = .attr name) ∧
        marker e.2 ∉ (takeMarkers path attributes s).1.map Prod.fst := by
  fun_induction takeMarkers path attributes s with
  | case1 attributes s found hfound ih =>
    have hmem := List.mem_of_find?_eq_some hfound
    have hwanted : found.1 = s.wanted := by simpa using List.find?_some hfound
    have herase := notMem_erase_of_nodup hnodup hmem
    obtain ⟨holes, hfinds, hsub, hnext, hall⟩ := ih (hnodup.sublist (List.erase_sublist.map _))
    have hrecord := s.finds_record (.attr found.2) path
    refine ⟨_, hrecord.trans hfinds, fun b hb => List.mem_of_mem_erase (hsub hb), hnext, fun e he => ?_⟩
    rw [hrecord.zipIdx_append, List.mem_append] at he
    rcases he with he | he
    · rw [List.zipIdx_singleton, List.mem_singleton] at he
      rw [he]
      refine ⟨rfl, ⟨found.2, rfl⟩, fun hm => herase ?_⟩
      rw [hwanted]
      exact List.map_subset _ hsub hm
    · exact hall e he
  | case2 attributes s hnone =>
    refine ⟨[], .refl s, List.Subset.refl _, fun hm => ?_, fun e he => by cases he⟩
    obtain ⟨a, ha, hname⟩ := List.mem_map.1 hm
    exact List.find?_eq_none.1 hnone a ha (by simpa using hname)

theorem holdsTextMarker_iff :
    holdsTextMarker tag children s = true ↔ IsTextMarker s.found.length tag children := by
  simp [holdsTextMarker, IsTextMarker]

theorem IsTextMarker.congr {i : Nat} {tag' : Tag} {children' : List Tree}
    (h : IsTextMarker i tag children) (hname : tag'.name = tag.name)
    (htext : Markup.textContentAll children' = Markup.textContentAll children) :
    IsTextMarker i tag' children' := by
  rw [IsTextMarker, hname, htext]
  exact h

/-- The holes that are found at a start tag: attributes, and perhaps the text behind them. -/
theorem finds_searchTag (path : List Nat) (children : List Tree) (s : Search)
    (hnodup : (tag.attributes.map Prod.fst).Nodup) :
    ∃ holes, s.Finds (searchTag path tag children s).2 holes ∧ holes.Pairwise Hole.Before ∧
      (∀ h ∈ holes, h.path = path) ∧
      ∀ e ∈ holes.zipIdx s.found.length, ∀ children',
        Markup.textContentAll children' = Markup.textContentAll children →
        e.1.kind.Marks e.2 (.element (searchTag path tag children s).1 children') := by
  obtain ⟨holes, hfinds, -, hnext, hall⟩ := finds_takeMarkers path s hnodup
  have hattr : ∀ h ∈ holes, h.path = path ∧ ∃ name, h.kind = .attr name := by
    intro h hh
    obtain ⟨i, hi⟩ := Search.exists_number hh s.found.length
    exact ⟨(hall _ hi).1, (hall _ hi).2.1⟩
  have hpairs : holes.Pairwise Hole.Before := by
    apply List.pairwise_of_forall_mem_list
    intro h hh h' hh'
    obtain ⟨hpath, hkind⟩ := hattr h hh
    obtain ⟨hpath', name, hkind'⟩ := hattr h' hh'
    exact .inr ⟨hpath.trans hpath'.symm, hkind, by simp [hkind']⟩
  have hmarks : ∀ e ∈ holes.zipIdx s.found.length, ∀ children',
      e.1.kind.Marks e.2 (.element (searchTag path tag children s).1 children') := by
    intro e he children'
    obtain ⟨-, ⟨name, hkind⟩, hgone⟩ := hall e he
    rw [hkind]
    exact hgone
  by_cases htext : holdsTextMarker tag children (takeMarkers path tag.attributes s).2 = true
  · have hfound : (searchTag path tag children s).2
        = (takeMarkers path tag.attributes s).2.record .text path := if_pos htext
    refine ⟨holes ++ [⟨.text, path⟩], ?_, ?_, ?_, ?_⟩
    · rw [hfound]
      exact hfinds.trans (Search.finds_record _ _ _)
    · apply List.pairwise_append.2 ⟨hpairs, List.pairwise_singleton _ _, _⟩
      intro h hh h' hh'
      obtain ⟨hpath, hkind⟩ := hattr h hh
      rw [List.mem_singleton.1 hh']
      exact .inr ⟨hpath, hkind, by simp⟩
    · intro h hh
      rcases List.mem_append.1 hh with hh | hh
      · exact (hattr h hh).1
      · rw [List.mem_singleton.1 hh]
    · intro e he children' hsame
      rw [hfinds.zipIdx_append, List.mem_append] at he
      rcases he with he | he
      · exact hmarks e he children'
      · rw [List.zipIdx_singleton, List.mem_singleton] at he
        rw [he]
        exact ⟨(holdsTextMarker_iff.1 htext).congr rfl hsame, hnext⟩
  · have hfound : (searchTag path tag children s).2 = (takeMarkers path tag.attributes s).2 :=
      if_neg htext
    refine ⟨holes, ?_, hpairs, fun h hh => (hattr h hh).1, fun e he children' _ => hmarks e he children'⟩
    rw [hfound]
    exact hfinds

/-- The search leaves all text as it is. -/
theorem textContent_search :
    (∀ (t : Tree) (path : List Nat) (s : Search), (searchTree path s t).1.textContent = t.textContent) ∧
    ∀ (ts : List Tree) (path : List Nat) (i : Nat) (s : Search),
      Markup.textContentAll (searchAll path i s ts).1 = Markup.textContentAll ts := by
  refine Markup.Tree.induct ?_ ?_ ?_ ?_ ?_
  · intro tag children ih path s
    rw [searchTree]
    split
    · rfl
    · rw [Tree.textContent, Tree.textContent]
      exact ih path 0 _
  · intro data path s
    rw [searchTree]
  · intro data path s
    rw [searchTree]
  · intro path i s
    rw [searchAll]
  · intro t ts iht ihts path i s
    rw [searchAll, Markup.textContentAll, Markup.textContentAll, iht, ihts]

/-- The holes that are found in some trees, and what they lead to there. -/
theorem finds_search :
    (∀ (t : Tree) (space : Markup.Namespace) (path : List Nat) (s : Search), t.IsRegular space →
      ∃ holes, s.Finds (searchTree path s t).2 holes ∧ holes.Pairwise Hole.Before ∧
        ∀ e ∈ holes.zipIdx s.found.length, ∃ ρ t', e.1.path = path ++ ρ ∧
          (searchTree path s t).1.at? ρ = some t' ∧ e.1.kind.Marks e.2 t') ∧
    ∀ (ts : List Tree) (space : Markup.Namespace) (path : List Nat) (i : Nat) (s : Search),
      Markup.EachIsRegular space ts →
      ∃ holes, s.Finds (searchAll path i s ts).2 holes ∧ holes.Pairwise Hole.Before ∧
        ∀ e ∈ holes.zipIdx s.found.length, ∃ j ρ t', e.1.path = path ++ (i + j) :: ρ ∧
          Tree.follow (searchAll path i s ts).1 (j :: ρ) = some t' ∧ e.1.kind.Marks e.2 t' := by
  refine Markup.Tree.induct ?_ ?_ ?_ ?_ ?_
  · intro tag children ih space path s hregular
    rw [Markup.Tree.IsRegular] at hregular
    rw [searchTree]
    split
    · exact ⟨[], .refl s, .nil, fun e he => by cases he⟩
    · obtain ⟨outer, houter, hpairs, hpath, hmarks⟩ := finds_searchTag path children s hregular.1.nodup
      obtain ⟨inner, hinner, hpairs', hall⟩ :=
        ih tag.contentSpace path 0 (searchTag path tag children s).2 hregular.2.2.2
      refine ⟨outer ++ inner, houter.trans hinner, ?_, fun e he => ?_⟩
      · apply List.pairwise_append.2 ⟨hpairs, hpairs', _⟩
        intro h hh h' hh'
        obtain ⟨i, hi⟩ := Search.exists_number hh' _
        obtain ⟨j, ρ, -, hpath', -⟩ := hall _ hi
        left
        rw [hpath h hh, hpath']
        exact lt_of_eq_of_lt (List.append_nil path).symm (List.append_left_lt (List.nil_lt_cons _ _))
      · rw [houter.zipIdx_append, List.mem_append] at he
        rcases he with he | he
        · refine ⟨[], _, ?_, rfl, hmarks e he _ (textContent_search.2 children path 0 _)⟩
          rw [List.append_nil]
          exact hpath _ (List.fst_mem_of_mem_zipIdx he)
        · obtain ⟨j, ρ, t', hpath', hfollow, hmarks'⟩ := hall e he
          rw [Nat.zero_add] at hpath'
          exact ⟨j :: ρ, t', hpath', hfollow, hmarks'⟩
  · intro data space path s _
    rw [searchTree]
    exact ⟨[], .refl s, .nil, fun e he => by cases he⟩
  · intro data space path s _
    rw [searchTree]
    dsimp only
    split
    · rename_i hfound
      refine ⟨[⟨.child, path⟩], s.finds_record _ _, List.pairwise_singleton _ _, fun e he => ?_⟩
      rw [List.zipIdx_singleton, List.mem_singleton] at he
      rw [he]
      refine ⟨[], _, (List.append_nil _).symm, rfl, ?_⟩
      rw [Bool.and_eq_true] at hfound
      exact eq_of_beq hfound.2
    · exact ⟨[], .refl s, .nil, fun e he => by cases he⟩
  · intro space path i s _
    rw [searchAll]
    exact ⟨[], .refl s, .nil, fun e he => by cases he⟩
  · intro t ts iht ihts space path i s hregular
    rw [Markup.EachIsRegular] at hregular
    obtain ⟨first, hfirst, hpairs, hall⟩ := iht space (path ++ [i]) s hregular.1
    obtain ⟨rest, hrest, hpairs', hall'⟩ :=
      ihts space path (i + 1) (searchTree (path ++ [i]) s t).2 hregular.2
    rw [searchAll]
    refine ⟨first ++ rest, hfirst.trans hrest, ?_, fun e he => ?_⟩
    · apply List.pairwise_append.2 ⟨hpairs, hpairs', _⟩
      intro h hh h' hh'
      obtain ⟨k, hk⟩ := Search.exists_number hh _
      obtain ⟨k', hk'⟩ := Search.exists_number hh' _
      obtain ⟨ρ, -, hpath, -⟩ := hall _ hk
      obtain ⟨j, ρ', -, hpath', -⟩ := hall' _ hk'
      left
      rw [hpath, hpath', List.append_assoc]
      apply List.append_left_lt
      rw [List.singleton_append, List.cons_lt_cons_iff]
      left
      omega
    · rw [hfirst.zipIdx_append, List.mem_append] at he
      rcases he with he | he
      · obtain ⟨ρ, t', hpath, hat, hmarks⟩ := hall e he
        exact ⟨0, ρ, t', by rw [hpath, List.append_assoc]; rfl, hat, hmarks⟩
      · obtain ⟨j, ρ, t', hpath, hfollow, hmarks⟩ := hall' e he
        refine ⟨j + 1, ρ, t', ?_, hfollow, hmarks⟩
        rw [hpath, show i + 1 + j = i + (j + 1) by omega]

/-- Where the holes of a template are. -/
theorem addressed_compilation (space : Markup.Namespace) (t : Template) :
    (t.compilation space).compiled.Addressed := by
  have hregular := (Markup.areRegular_parse space (markHoles t.segments)).each
  obtain ⟨holes, hfinds, hpairs, hall⟩ := finds_search.2 _ space [] 0 ⟨t.gaps, []⟩ hregular
  have hholes : (t.compilation space).compiled.holes = holes := by
    rw [compilation]
    dsimp only
    rw [hfinds.found, List.append_nil, List.reverse_reverse]
  refine ⟨fun i h hi => ?_, ?_⟩
  · rw [hholes] at hi
    obtain ⟨j, ρ, t', hpath, hfollow, hmarks⟩ := hall (h, i) (List.mk_mem_zipIdx_iff_getElem?.2 hi)
    rw [List.nil_append, Nat.zero_add] at hpath
    exact ⟨t', hpath ▸ hfollow, hmarks⟩
  · rw [hholes]
    exact hpairs

theorem coherent_compilation (space : Markup.Namespace) (t : Template) :
    (t.compilation space).compiled.Coherent :=
  (addressed_compilation space t).coherent

end Template

end LiveMarkup
