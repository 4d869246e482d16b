import LiveMarkup.Proofs.Document.Confinement
/-!
# New content in any document

What is made from markup is what the markup says, whatever the document is like otherwise: its nodes may be
linked in any way, since none of them is asked (`stands_addContent`). All that is relied on is that the numbers
of nodes and attributes are not in use already. So a path from the top of a new fragment leads to new nodes only
(`unmade_of_descend?`).
-/

namespace LiveMarkup.Document

open Markup (Tree Tag)

variable {d d' : Document} {n p : NodeId} {q : Plant} {ps : List Plant}

/-! ### Paths -/

/-- A path does not leave the plants that it leads into. -/
theorem mem_of_descend? {path : List Nat}
    (h : ∀ path r, Plant.follow ps path = some r → d.children r.id = r.children.map Plant.id)
    (hrow : d.children p = ps.map Plant.id) (hpath : d.descend? p path = some n) :
    n = p ∨ n ∈ Plant.idsAll ps := by
  induction path generalizing p ps with
  | nil => exact .inl (Option.some.inj hpath).symm
  | cons i path ih =>
    obtain ⟨m, hm, hrest⟩ := Option.bind_eq_some_iff.1 hpath
    rw [child?, hrow, List.getElem?_map] at hm
    obtain ⟨c, hc, rfl⟩ := Option.map_eq_some_iff.1 hm
    have hmem : c ∈ ps := List.mem_of_getElem? hc
    have hbelow : ∀ path r, Plant.follow c.children path = some r →
        d.children r.id = r.children.map Plant.id := by
      intro path' r hr
      cases path' with
      | nil => cases hr
      | cons j path' => exact h (i :: j :: path') r (Plant.follow_cons.2 ⟨c, hc, Plant.at?_cons ▸ hr⟩)
    rcases ih hbelow (h [i] c (Plant.follow_cons.2 ⟨c, hc, rfl⟩)) hrest with rfl | hn
    · exact .inr (Plant.id_mem_idsAll hmem)
    · exact .inr (Plant.mem_idsAll.2 ⟨c, hmem, c.ids_eq ▸ List.mem_cons_of_mem _ hn⟩)

/-- A path from the top of a new fragment leads to new nodes. -/
theorem unmade_of_descend? {content : List Tree} {path : List Nat}
    (h : (d.createFragment content).2.descend? (d.createFragment content).1 path = some n) :
    ¬ d.Has n ∧ (d.createFragment content).2.Has n := by
  obtain ⟨hroot, hrow, hsprouted⟩ := sprouted_createFragment d content
  rw [hroot] at h
  rcases mem_of_descend? hsprouted.below hrow h with rfl | hn
  · refine ⟨not_has_next, hsprouted.has ?_⟩
    rw [Has, (budded_create d .fragment "").nodes]
    exact Nat.lt_succ_self _
  · obtain ⟨hnew, hhas⟩ := hsprouted.ids n hn
    exact ⟨fun hold => hnew ((grows_create ..).has hold), hhas⟩

/-! ### Trees -/

/-- What is done to a document without reaching a node leaves it as it is, if its children stay. -/
theorem Undisturbed.unchanged (h : d.Undisturbed d' n) (hhas : d.Has n → d'.Has n)
    (hchildren : d'.children n = d.children n) : Unchanged d d' n := by
  have hkind := congrArg Node.kind h.bare
  have hdata := congrArg Node.data h.bare
  have hlist := congrArg Node.attributes h.bare
  exact ⟨hhas, hkind, hdata, hlist, h.pairs, hchildren⟩

/-- Making something leaves a node that is there as it is, if its children stay. -/
theorem Confined.unchanged (h : d.Confined d' d.unmade) (hd : d.Listed) (hn : d.Has n)
    (hchildren : d'.children n = d.children n) : Unchanged d d' n :=
  (h.undisturbed_of_unmade hd hn).unchanged h.grows.has hchildren

theorem pairs_giveAttributes (hd : d.Listed) (hn : d.Has n) (pairs : List (String × String)) :
    (pairs.foldl (fun d a => d.giveAttribute n a.1 a.2) d).kind n = d.kind n ∧
      (pairs.foldl (fun d a => d.giveAttribute n a.1 a.2) d).attributePairs n
        = d.attributePairs n ++ pairs := by
  induction pairs generalizing d with
  | nil => exact ⟨rfl, (List.append_nil _).symm⟩
  | cons a rest ih =>
    have hgive : d.Confined (d.giveAttribute n a.1 a.2) ⟨fun _ => True, fun _ => True⟩ :=
      confined_giveAttribute trivial d trivial a.1 a.2
    obtain ⟨hkind, hpairs⟩ := ih (hgive.listed hd) (hgive.grows.has hn)
    refine ⟨hkind.trans ?_, hpairs.trans ?_⟩
    · rw [kind, node_giveAttribute, if_pos ⟨rfl, hn⟩, kind]
    · rw [pairs_giveAttribute (hd n) hn, List.append_assoc]
      rfl

/-- A new element has the name and the attributes of its tag. -/
theorem tagged_createElement (hd : d.Listed) (tag : Tag) :
    (d.createElement tag).2.kind d.next = .element tag.name tag.space ∧
      (d.createElement tag).2.attributePairs d.next = tag.attributes := by
  have hcreate : d.Confined (d.create (.element tag.name tag.space) "").2 d.unmade := confined_create ..
  have hhas : (d.create (.element tag.name tag.space) "").2.Has d.next :=
    Nat.lt_of_lt_of_eq (Nat.lt_succ_self _) (budded_create d _ "").nodes.symm
  obtain ⟨hkind, hpairs⟩ := pairs_giveAttributes (hcreate.listed hd) hhas tag.attributes
  refine ⟨hkind.trans kind_create_next, hpairs.trans ?_⟩
  have hnode := node_create d (.element tag.name tag.space) "" d.next
  rw [if_pos rfl] at hnode
  rw [attributePairs, hnode]
  rfl

/-- A text or comment that has just been made. -/
theorem node_made_link (d : Document) (p : NodeId) (kind : NodeKind) (data : String) :
    ((d.create kind data).2.link p d.next).Has d.next ∧
      ((d.create kind data).2.link p d.next).kind d.next = kind ∧
      (((d.create kind data).2.link p d.next).node d.next).data = data := by
  have hlink : (d.create kind data).2.Confined ((d.create kind data).2.link p d.next)
      (d.create kind data).2.unmade := confined_link ..
  have hbudded := budded_create d kind data
  have hhas : (d.create kind data).2.Has d.next :=
    Nat.lt_of_lt_of_eq (Nat.lt_succ_self _) hbudded.nodes.symm
  have hbare := hlink.bare d.next hhas fun hout => hout hhas
  have hkind := congrArg Node.kind hbare
  have hdata := congrArg Node.data hbare
  have hnode := node_create d kind data d.next
  rw [if_pos rfl] at hnode
  rw [hnode] at hkind hdata
  exact ⟨hlink.grows.has hhas, hkind, hdata⟩

theorem stands_trees :
    (∀ (t : Tree) {p : NodeId} {d : Document}, d.Has p → d.Listed →
      (addTree p d t).Stands (plant d.nodes.size t)) ∧
    ∀ (ts : List Tree) {p : NodeId} {d : Document}, d.Has p → d.Listed →
      ∀ q ∈ plantAll d.nodes.size ts, (addContent p d ts).Stands q := by
  refine Markup.Tree.induct ?_ ?_ ?_ ?_ ?_
  · intro tag children ih p d hp hd
    have hbudded := budded_createElement d tag
    obtain ⟨hsize, -, hhas, hnil, -, -⟩ := hbudded.link hp
    obtain ⟨hkind, hpairs⟩ := tagged_createElement hd tag
    have hmade := confined_createElement d tag
    have hlink : (d.createElement tag).2.Confined ((d.createElement tag).2.link p d.next)
        (d.createElement tag).2.unmade := confined_link ..
    have hn : (d.createElement tag).2.Has d.next :=
      Nat.lt_of_lt_of_eq (Nat.lt_succ_self _) hbudded.nodes.symm
    have hlisted := hmade.listed hd
    have hsame := hlink.undisturbed hlisted hn (fun hout => hout hn) fun a ha hout => hout (hlisted _ a ha)
    have hkind' := (congrArg Node.kind hsame.bare).trans hkind
    rw [addTree]
    have hfresh : (d.createElement tag).1 = d.next := rfl
    rw [hfresh] at hhas hnil hsize ⊢
    generalize (d.createElement tag).2.link p d.next = d₁ at *
    have hcontent := confined_trees.2 children d.next d₁
    have hlisted₁ := hlink.listed hlisted
    have hsame₁ := hcontent.undisturbed hlisted₁ hhas (fun hout => hout hhas) fun a ha hout =>
      hout (hlisted₁ _ a ha)
    have hrow := (sprouted_addContent hhas children).row
    rw [hsize, hnil, List.nil_append] at hrow
    have hbelow := ih hhas hlisted₁
    rw [hsize] at hbelow
    rw [plant]
    exact .element (hcontent.grows.has hhas) ((congrArg Node.kind hsame₁.bare).trans hkind')
      ((hsame₁.pairs.trans hsame.pairs).trans hpairs) hrow hbelow
  · intro data p d hp _
    obtain ⟨hhas, hkind, hdata⟩ := node_made_link d p .text data
    exact .text hhas hkind hdata
  · intro data p d hp _
    obtain ⟨hhas, hkind, hdata⟩ := node_made_link d p .comment data
    exact .comment hhas hkind hdata
  · intro p d _ _ q hq
    cases hq
  · intro t ts iht ihts p d hp hd q hq
    obtain ⟨hsprouted, hsize⟩ := sprouted_trees.1 t hp
    have hfirst := confined_trees.1 t p d
    have hrest := confined_trees.2 ts p (addTree p d t)
    rw [plantAll, List.mem_cons] at hq
    rw [addContent]
    rcases hq with rfl | hq
    · refine (iht hp hd).congr fun m hm => ?_
      obtain ⟨hnew, hhas⟩ := hsprouted.ids m (by rwa [Plant.idsAll_cons, Plant.idsAll_nil, List.append_nil])
      refine hrest.unchanged (hfirst.listed hd) hhas ?_
      exact (sprouted_addContent (hsprouted.has hp) ts).rows m hhas fun he => hnew (he ▸ hp)
    · refine ihts (hsprouted.has hp) (hfirst.listed hd) q ?_
      rwa [hsize]

/-- Content stands below the node that it is put into. -/
theorem stands_addContent (hp : d.Has p) (hd : d.Listed) (ts : List Tree) :
    ∀ q ∈ plantAll d.nodes.size ts, (addContent p d ts).Stands q :=
  stands_trees.2 ts hp hd

theorem stands_createFragment (hd : d.Listed) (content : List Tree) :
    ∀ q ∈ plantAll (d.nodes.size + 1) content, (d.createFragment content).2.Stands q := by
  have hcreate : d.Confined (d.create .fragment "").2 d.unmade := confined_create ..
  have hhas : (d.create .fragment "").2.Has d.next :=
    Nat.lt_of_lt_of_eq (Nat.lt_succ_self _) (budded_create d .fragment "").nodes.symm
  have hstands := stands_addContent hhas (hcreate.listed hd) content
  rw [(budded_create d .fragment "").nodes] at hstands
  exact hstands

/-! ### Taking a tree out -/

theorem children_detach_cases (d : Document) (n m : NodeId) :
    (d.detach n).children m = d.children m ∨
      (d.detach n).children m = (d.children m).filter (· != n) := by
  have hparent : ∀ d : Document,
      (d.update n fun r => { r with parent := none }).children m = d.children m := by
    intro d
    rw [children, node_update]
    split <;> rfl
  unfold detach
  split
  · exact .inl rfl
  · rw [hparent, children, node_update]
    split
    · exact .inr rfl
    · exact .inl rfl

/-- A plant stands when its topmost node is taken away from where it is. -/
theorem Stands.detach (h : d.Stands q) (hn : n ∉ Plant.idsAll q.children) : (d.detach n).Stands q := by
  have hrelinked := relinked_detach d n
  induction h with
  | @element id tag children has kind pairs row _ ih =>
    have hkeep : (d.children id).filter (· != n) = d.children id := by
      rw [List.filter_eq_self]
      intro m hm
      rw [row] at hm
      obtain ⟨c, hc, rfl⟩ := List.mem_map.1 hm
      have hne : c.id ≠ n := fun he => hn (he ▸ Plant.id_mem_idsAll hc)
      simpa using hne
    refine .element (hrelinked.has.2 has) ((hrelinked.kind id).trans kind) ((hrelinked.pairs id).trans pairs)
      ?_ fun c hc => ih c hc fun hmem => hn ?_
    · rcases children_detach_cases d n id with hsame | hfilter
      · exact hsame.trans row
      · exact (hfilter.trans hkeep).trans row
    · exact Plant.mem_idsAll.2 ⟨c, hc, c.ids_eq ▸ List.mem_cons_of_mem _ hmem⟩
  | text has kind written =>
    exact .text (hrelinked.has.2 has) ((hrelinked.kind _).trans kind) ((hrelinked.data _).trans written)
  | comment has kind written =>
    exact .comment (hrelinked.has.2 has) ((hrelinked.kind _).trans kind) ((hrelinked.data _).trans written)

/-- Plants without a node in common are read as what they stand for. -/
theorem flatMap_trees (hstand : ∀ q ∈ ps, d.Stands q) (hnd : (Plant.idsAll ps).Nodup) :
    (ps.map Plant.id).flatMap d.trees = Plant.trees ps := by
  induction ps with
  | nil => rfl
  | cons q rest ih =>
    obtain ⟨hq, hrest⟩ := List.forall_mem_cons.1 hstand
    rw [Plant.idsAll_cons, List.nodup_append] at hnd
    have hlength := length_le_size hnd.1 fun n hn => hq.has_of_mem hn
    have htree : d.trees q.id = [q.tree] := hq.treesFrom (Nat.le_succ_of_le hlength)
    rw [List.map_cons, List.flatMap_cons, htree, ih hrest hnd.2.1, Plant.trees]
    rfl

end LiveMarkup.Document
