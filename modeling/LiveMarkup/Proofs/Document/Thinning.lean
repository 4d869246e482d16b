import LiveMarkup.Proofs.Document.Exactness
import LiveMarkup.Proofs.Document.Steps
/-!
# Taking entries out of a list

When the new list is the old one without some of its entries, a reconciliation does nothing but remove those.
At every moment the new entries that are left are among the old ones that are left, in the same order, and
none of these has been settled (`Pass.Thinning`). So an old entry that is in the way is in no part of the new
list, and whenever the index is made, it does not have it; nothing is ever put anywhere. The entries are
removed one at a time in the order of the old list (`Pass.removes_run`). If they are nodes, each of them
counts once, and what is left is the new list (`Document.reconcile_sublist`).
-/

namespace LiveMarkup

/-- A place where the entries are nodes, which stand for themselves. -/
def Site.ofNodes (container : NodeId) (before : Option NodeId) : Site NodeId where
  container := container
  before := before
  find n _ d := (n, d)

section Lists

variable {E : Type} [DecidableEq E] {e : E} {xs ys : List E}

theorem Index.position?_eq_none {index : Index E} (h : e ∉ index.entries) : index.position? e = none := by
  rw [Index.position?, Option.map_eq_none_iff, Option.eq_none_iff_forall_ne_some]
  intro i hi
  apply h
  exact List.mem_of_getElem? (getElem?_of_lastPosition? hi)

theorem common_eq_of_sublist (h : ys.Sublist xs) (hnd : xs.Nodup) : common xs ys = ys := by
  induction h with
  | slnil => rfl
  | @cons ys xs x h ih =>
    rw [List.nodup_cons] at hnd
    have hx : x ∉ ys := fun hm => hnd.1 (h.subset hm)
    rw [common_cons_of_not_mem hx, ih hnd.2]
  | @cons_cons ys xs x h ih =>
    rw [List.nodup_cons] at hnd
    rw [common_cons_of_mem (List.mem_cons_self ..), common_cons_right hnd.1, ih hnd.2]

theorem length_filter_notMem_of_sublist (h : ys.Sublist xs) (hnd : xs.Nodup) :
    (xs.filter (· ∉ ys)).length = xs.length - ys.length := by
  have hsplit := xs.length_eq_length_filter_add (· ∈ ys)
  have hkept : (xs.filter (· ∈ ys)).length = ys.length := congrArg List.length (common_eq_of_sublist h hnd)
  simp only [decide_not] at hsplit ⊢
  omega

/-- Without the entries that are missing in a list, another one is that list. -/
theorem filter_notMem_missing_of_sublist (h : ys.Sublist xs) (hnd : xs.Nodup) :
    xs.filter (· ∉ xs.filter (· ∉ ys)) = ys := by
  refine (List.filter_congr fun n hn => ?_).trans (common_eq_of_sublist h hnd)
  simp [hn]

end Lists

namespace Pass

variable {E : Type} {s s' s'' : Pass E} {site : Site E} {o n : E} {os ns gone gone' : List E}

/-- The document without the node of an entry. -/
def removed (site : Site E) (d : Document) (e : E) : Document :=
  (site.find e .remove d).2.removeChild site.container (site.find e .remove d).1

/-- Some entries have been removed, one after another, and nothing else has been done. -/
structure Removes (site : Site E) (s s' : Pass E) (gone : List E) : Prop where
  document : s'.document = gone.foldl (removed site) s.document
  accesses : s'.accesses = (gone.map (Access.remove, ·)).reverse ++ s.accesses

theorem Removes.trans (h : Removes site s s' gone) (h' : Removes site s' s'' gone') :
    Removes site s s'' (gone ++ gone') where
  document := by rw [h'.document, h.document, List.foldl_append]
  accesses := by
    rw [h'.accesses, h.accesses]
    simp

theorem removes_foldl_remove (s : Pass E) (site : Site E) (es : List E) :
    Removes site s (es.foldl (fun s e => s.remove site e) s) es := by
  induction es generalizing s with
  | nil => exact ⟨rfl, rfl⟩
  | cons e rest ih =>
    have hone : Removes site s (s.remove site e) [e] := ⟨rfl, rfl⟩
    exact hone.trans (ih (s.remove site e))

theorem index_foldl_remove (s : Pass E) (site : Site E) (es : List E) :
    (es.foldl (fun s e => s.remove site e) s).index = s.index := by
  induction es generalizing s with
  | nil => rfl
  | cons e rest ih => exact ih (s.remove site e)

/-- What is left to be placed is what is left of the old entries without some of them, and no old entry that
is left has been settled. The index has entries of the new list only. -/
structure Thinning (s : Pass E) : Prop where
  sublist : s.new.Sublist s.old
  old_nodup : s.old.Nodup
  unsettled : ∀ e ∈ s.old, e ∉ s.front ∧ e ∉ s.back
  indexed : ∀ index, s.index = some index → ∀ e ∈ index.entries, e ∈ s.target

namespace Thinning

/-- An old entry in front that is not the next new one is not to be placed at all. -/
theorem not_mem_new (h : s.Thinning) (hapart : s.Apart) (ho : s.old = o :: os) : o ∉ s.new := by
  have hsub := h.sublist
  have hnd := h.old_nodup
  rw [ho, List.sublist_cons_iff] at hsub
  rw [ho, List.nodup_cons] at hnd
  rcases hsub with hsub | ⟨ns, hn, -⟩
  · exact fun hm => hnd.1 (hsub.subset hm)
  · exact absurd hn (hapart.head ho)

theorem entries_subset (h : s.Thinning) :
    ∀ e ∈ (s.index.getD ⟨s.new, s.settled⟩).entries, e ∈ s.target := by
  cases hindex : s.index with
  | none =>
    intro e he
    have hnew : e ∈ s.new := he
    simp [target, hnew]
  | some index => exact h.indexed index hindex

theorem start {a b : List E} (d : Document) (hsub : b.Sublist a) (hnd : a.Nodup) :
    (start d a b).Thinning :=
  ⟨hsub, hnd, by simp [Pass.start], by simp [Pass.start]⟩

end Thinning

variable [DecidableEq E]

/-- The old entries that are not to be placed. -/
def unwanted (s : Pass E) : List E :=
  s.old.filter (· ∉ s.new)

namespace Thinning

/-- The index does not have such an entry, whenever it was made. -/
theorem place?_eq_none (h : s.Thinning) (hapart : s.Apart) (ho : s.old = o :: os) : s.place? o = none := by
  apply Index.position?_eq_none
  intro hm
  have htarget := h.entries_subset o hm
  have hnew := h.not_mem_new hapart ho
  have hsettled := h.unsettled o (by simp [ho])
  simp [target, hnew, hsettled.1, hsettled.2] at htarget

theorem advance (h : s.Thinning) (ho : s.old = n :: os) (hn : s.new = n :: ns) :
    let s' : Pass E := { s with old := os, new := ns, front := n :: s.front }
    s'.Thinning ∧ s.unwanted = s'.unwanted := by
  intro s'
  have hsub := h.sublist
  have hnd := h.old_nodup
  rw [ho, hn, List.cons_sublist_cons] at hsub
  rw [ho, List.nodup_cons] at hnd
  have hne : ∀ e ∈ os, e ≠ n := fun e he hen => hnd.1 (hen ▸ he)
  constructor
  · have htarget : s'.target = s.target := by simp [s', target, hn]
    refine ⟨hsub, hnd.2, fun e he => ?_, fun index hindex => htarget ▸ h.indexed index hindex⟩
    have hsettled := h.unsettled e (by rw [ho]; exact List.mem_cons_of_mem n he)
    simpa [s', hne e he] using hsettled
  · rw [unwanted, ho, hn, List.filter_cons_of_neg (by simp)]
    refine List.filter_congr fun e he => ?_
    simp [s', hne e he]

theorem retreat (h : s.Thinning) (ho : s.old = os ++ [n]) (hn : s.new = ns ++ [n]) :
    let s' : Pass E := { s with old := os, new := ns, back := n :: s.back }
    s'.Thinning ∧ s.unwanted = s'.unwanted := by
  intro s'
  have hsub := h.sublist
  have hnd := h.old_nodup
  rw [ho, hn, List.append_sublist_append_right] at hsub
  rw [ho, List.nodup_append] at hnd
  have hne : ∀ e ∈ os, e ≠ n := fun e he => hnd.2.2 e he n (List.mem_singleton_self n)
  constructor
  · have htarget : s'.target = s.target := by simp [s', target, hn]
    refine ⟨hsub, hnd.1, fun e he => ?_, fun index hindex => htarget ▸ h.indexed index hindex⟩
    have hsettled := h.unsettled e (by rw [ho]; exact List.mem_append_left _ he)
    simpa [s', hne e he] using hsettled
  · have hlast : [n].filter (· ∉ s.new) = [] := by simp [hn]
    rw [unwanted, ho, List.filter_append, hlast, List.append_nil]
    refine List.filter_congr fun e he => ?_
    simp [s', hn, hne e he]

theorem removeRest (h : s.Thinning) (site : Site E) (hn : s.new = []) :
    (s.removeRest site).Thinning ∧ s.unwanted = s.old ∧ (s.removeRest site).unwanted = [] := by
  have hnew : (s.removeRest site).new = [] := (new_foldl_remove s site s.old).trans hn
  have htarget : (s.removeRest site).target = s.target := target_foldl_remove s site s.old
  have hindex : (s.removeRest site).index = s.index := index_foldl_remove s site s.old
  refine ⟨⟨?_, List.nodup_nil, by simp [Pass.removeRest], ?_⟩, by simp [unwanted, hn], rfl⟩
  · rw [hnew]
    exact List.nil_sublist _
  · rw [hindex, htarget]
    exact h.indexed

theorem drop (h : s.Thinning) (site : Site E) (hapart : s.Apart) (ho : s.old = o :: os) :
    let s' : Pass E := { s.withIndex.remove site o with old := os }
    s'.Thinning ∧ s.unwanted = o :: s'.unwanted := by
  intro s'
  have hnew := h.not_mem_new hapart ho
  have hsub := h.sublist
  have hnd := h.old_nodup
  rw [ho, List.sublist_cons_iff] at hsub
  rw [ho, List.nodup_cons] at hnd
  have hrest : s.new.Sublist os := by
    rcases hsub with hsub | ⟨ns, hn, -⟩
    · exact hsub
    · exact absurd hn (hapart.head ho)
  constructor
  · refine ⟨hrest, hnd.2, fun e he => ?_, fun index hindex => ?_⟩
    · apply h.unsettled e
      rw [ho]
      exact List.mem_cons_of_mem o he
    · obtain rfl := Option.some.inj hindex
      exact h.entries_subset
  · rw [unwanted, ho, List.filter_cons_of_pos (by simpa using hnew)]
    rfl

/-- A step passes over an entry that stays or removes some that do not, the first ones. -/
theorem turn (h : s.Thinning) (hturn : Turn site s s') :
    s'.Thinning ∧ ∃ gone, s.unwanted = gone ++ s'.unwanted ∧ Removes site s s' gone := by
  cases hturn with
  | advance ho hn =>
    obtain ⟨hthin, hsame⟩ := h.advance ho hn
    exact ⟨hthin, [], hsame, rfl, rfl⟩
  | retreat ho hn =>
    obtain ⟨hthin, hsame⟩ := h.retreat ho hn
    exact ⟨hthin, [], hsame, rfl, rfl⟩
  | work hapart hwork =>
    cases hwork with
    | placeRest ho hn =>
      have hsub := h.sublist
      rw [ho, List.sublist_nil] at hsub
      exact absurd hsub hn
    | removeRest ho hn =>
      obtain ⟨hthin, hall, hnone⟩ := h.removeRest site hn
      obtain ⟨hdocument, haccesses⟩ := removes_foldl_remove s site s.old
      exact ⟨hthin, s.old, by rw [hall, hnone, List.append_nil], hdocument, haccesses⟩
    | exchangeLast ho hn =>
      have hsub := h.sublist.subset
      have hnew := h.not_mem_new hapart ho
      simp_all
    | swapEnds ho hn =>
      have hnew := h.not_mem_new hapart ho
      simp [hn] at hnew
    | drop ho hn hplace =>
      obtain ⟨hthin, hfirst⟩ := h.drop site hapart ho
      exact ⟨hthin, [_], hfirst, rfl, rfl⟩
    | placeRun ho hn hplace =>
      rw [h.place?_eq_none hapart ho] at hplace
      cases hplace
    | replace ho hn hplace =>
      rw [h.place?_eq_none hapart ho] at hplace
      cases hplace
    | pass ho hn hplace =>
      rw [h.place?_eq_none hapart ho] at hplace
      cases hplace

/-- All that a run does is to remove the entries that are not in the new list, in their order. -/
theorem removes_run (h : s.Thinning) : Removes site s (s.run site) s.unwanted := by
  fun_induction run s site with
  | case1 s hdone =>
    rw [isDone, Bool.and_eq_true, List.isEmpty_iff, List.isEmpty_iff] at hdone
    have hnone : s.unwanted = [] := by simp [unwanted, hdone.1]
    rw [hnone]
    exact ⟨rfl, rfl⟩
  | case2 s hmore ih =>
    obtain ⟨hthin, gone, hgone, hremoves⟩ := h.turn (turn_step s site hmore)
    rw [hgone]
    exact hremoves.trans (ih hthin)

end Thinning

end Pass

namespace Document

variable {d : Document} {parent : NodeId} {nodes ahead behind a b : List NodeId}

/-- A run of children has no child twice, and all of them have the same parent. -/
theorem Forest.run (hf : d.Forest) (hrun : d.children parent = ahead ++ nodes ++ behind) :
    nodes.Nodup ∧ ∀ n ∈ nodes, d.parent? n = some parent := by
  have hall := hf.nodup parent
  rw [hrun, List.append_assoc] at hall
  refine ⟨(List.nodup_append.1 (List.nodup_append.1 hall).2.1).1, fun n hn => ?_⟩
  apply hf.parent_of_mem
  rw [hrun]
  simp [hn]

/-- Without some nodes of a run of children, those around it are as they were. -/
theorem Forest.filter_run {gone : List NodeId} (hf : d.Forest)
    (hrun : d.children parent = ahead ++ nodes ++ behind) (hgone : gone ⊆ nodes) :
    (d.children parent).filter (· ∉ gone) = ahead ++ nodes.filter (· ∉ gone) ++ behind := by
  have hall := hf.nodup parent
  rw [hrun, List.append_assoc] at hall
  have hahead : ahead.filter (· ∉ gone) = ahead := filter_notMem_of_disjoint fun n hn ha =>
    List.disjoint_of_nodup_append hall ha (List.mem_append_left _ (hgone hn))
  have hbehind : behind.filter (· ∉ gone) = behind := filter_notMem_of_disjoint fun n hn hb =>
    List.disjoint_of_nodup_append (List.nodup_append.1 hall).2.1 (hgone hn) hb
  rw [hrun, List.filter_append, List.filter_append, hahead, hbehind]

/-- The document without some nodes, each of which has been taken away by itself. -/
def withdraw (d : Document) (nodes : List NodeId) : Document :=
  nodes.foldl (fun d n => d.count.detach n) d

theorem mutations_withdraw (d : Document) (nodes : List NodeId) :
    (d.withdraw nodes).mutations = d.mutations + nodes.length := by
  unfold withdraw
  induction nodes generalizing d with
  | nil => rfl
  | cons n rest ih =>
    rw [List.foldl_cons, ih, mutations_detach, List.length_cons]
    show d.mutations + 1 + rest.length = d.mutations + (rest.length + 1)
    omega

theorem moved_withdraw (hf : d.Forest) (nodes : List NodeId) : Moved d (d.withdraw nodes) nodes := by
  unfold withdraw
  induction nodes generalizing d with
  | nil => exact .refl hf []
  | cons n rest ih =>
    have hone : Moved d (d.count.detach n) (n :: rest) := by
      have hcount : d.count.Forest := hf.counted 1
      have hmoved : Moved d.count (d.count.detach n) (n :: rest) := (moved_detach hcount n).mono (by simp)
      exact ⟨hmoved.forest, (relinked_counted d 1).trans hmoved.relinked, hmoved.children, hmoved.notices⟩
    exact hone.trans ((ih hone.forest).mono fun m hm => List.mem_cons_of_mem n hm)

theorem children_withdraw (hf : d.Forest) (nodes : List NodeId) (p : NodeId) :
    (d.withdraw nodes).children p = (d.children p).filter (· ∉ nodes) := by
  unfold withdraw
  induction nodes generalizing d with
  | nil => simp
  | cons n rest ih =>
    have hcount : d.count.Forest := hf.counted 1
    rw [List.foldl_cons, ih (hcount.detach n), children_detach hcount, children_count, filter_notMem_cons]

theorem parent?_withdraw (d : Document) (nodes : List NodeId) (m : NodeId) :
    (d.withdraw nodes).parent? m = if m ∈ nodes then none else d.parent? m := by
  unfold withdraw
  induction nodes generalizing d with
  | nil => simp
  | cons n rest ih =>
    rw [List.foldl_cons, ih, parent?_detach, parent?_count]
    by_cases hm : m ∈ rest
    · simp [hm]
    · simp [hm]

/-- Removing children one after another is taking each of them away. -/
theorem foldl_removed_eq_withdraw {before : Option NodeId} (hnd : nodes.Nodup)
    (hparent : ∀ n ∈ nodes, d.parent? n = some parent) :
    nodes.foldl (Pass.removed (Site.ofNodes parent before)) d = d.withdraw nodes := by
  unfold withdraw
  induction nodes generalizing d with
  | nil => rfl
  | cons n rest ih =>
    rw [List.nodup_cons] at hnd
    have hfirst : Pass.removed (Site.ofNodes parent before) d n = d.count.detach n := by
      show d.removeChild parent n = d.count.detach n
      rw [removeChild, if_pos (hparent n (List.mem_cons_self ..))]
    rw [List.foldl_cons, List.foldl_cons, hfirst]
    apply ih hnd.2
    intro m hm
    have hne : m ≠ n := fun hmn => hnd.1 (hmn ▸ hm)
    rw [parent?_detach, if_neg hne]
    exact hparent m (List.mem_cons_of_mem n hm)

/-- Reconciling a run of children to the same without some of them removes those and does nothing else. Every
access is for a removal, and there is one for each of those, in their order; so no child that stays is
asked for. Each removal takes one node away and counts as one change. Then the rest of the run stands where
the run stood, the removed nodes stand nowhere, and all others are where they were. -/
theorem reconcile_sublist (hf : d.Forest) (hrun : d.children parent = ahead ++ a ++ behind)
    (hsub : b.Sublist a) (before : Option NodeId) :
    let done := d.reconcile (Site.ofNodes parent before) a b
    let gone := a.filter (· ∉ b)
    done.accesses.reverse = gone.map (Access.remove, ·) ∧
    (∀ access, ∀ n ∈ b, (access, n) ∉ done.accesses) ∧
    done.document = gone.foldl (fun d n => d.count.detach n) d ∧
    done.document.mutations = d.mutations + (a.length - b.length) ∧
    done.document.children parent = ahead ++ b ++ behind ∧
    (∀ n ∈ gone, done.document.parent? n = none) ∧
    Moved d done.document gone := by
  intro done gone
  obtain ⟨hnd, hparent⟩ := hf.run hrun
  have hgone : ∀ n ∈ gone, n ∈ a ∧ n ∉ b := by
    intro n hn
    simpa [gone] using hn
  have hremoves : Pass.Removes (Site.ofNodes parent before) (Pass.start d a b) done gone :=
    (Pass.Thinning.start d hsub hnd).removes_run
  have haccesses : done.accesses = (gone.map (Access.remove, ·)).reverse := by
    rw [hremoves.accesses]
    exact List.append_nil _
  have hdocument : done.document = d.withdraw gone := by
    rw [hremoves.document]
    exact foldl_removed_eq_withdraw (hnd.filter _) fun n hn => hparent n (hgone n hn).1
  have hchildren : done.document.children parent = ahead ++ b ++ behind := by
    rw [hdocument, children_withdraw hf, hf.filter_run hrun fun n hn => (hgone n hn).1,
      filter_notMem_missing_of_sublist hsub hnd]
  refine ⟨by rw [haccesses, List.reverse_reverse], ?_, hdocument, ?_, hchildren, ?_, ?_⟩
  · intro access n hn hmem
    rw [haccesses, List.mem_reverse, List.mem_map] at hmem
    obtain ⟨m, hm, heq⟩ := hmem
    obtain rfl : m = n := congrArg Prod.snd heq
    exact (hgone m hm).2 hn
  · rw [hdocument, mutations_withdraw, length_filter_notMem_of_sublist hsub hnd]
  · intro n hn
    rw [hdocument, parent?_withdraw, if_pos hn]
  · rw [hdocument]
    exact moved_withdraw hf gone

/-- Of four texts the second and the last one are removed. -/
theorem reconcile_sublist_four_texts :
    let done := fourTexts.reconcile (Site.ofNodes ⟨0⟩ none) [⟨1⟩, ⟨2⟩, ⟨3⟩, ⟨4⟩] [⟨1⟩, ⟨3⟩]
    fourTexts.Forest ∧ fourTexts.children ⟨0⟩ = [] ++ [⟨1⟩, ⟨2⟩, ⟨3⟩, ⟨4⟩] ++ [] ∧
      [(⟨1⟩ : NodeId), ⟨3⟩].Sublist [⟨1⟩, ⟨2⟩, ⟨3⟩, ⟨4⟩] ∧
      done.accesses.reverse = [(.remove, ⟨2⟩), (.remove, ⟨4⟩)] ∧
      done.document.mutations = fourTexts.mutations + 2 ∧
      done.document.children ⟨0⟩ = [⟨1⟩, ⟨3⟩] := by
  intro done
  have hrun : fourTexts.children ⟨0⟩ = [] ++ [⟨1⟩, ⟨2⟩, ⟨3⟩, ⟨4⟩] ++ [] := by decide
  have hsub : [(⟨1⟩ : NodeId), ⟨3⟩].Sublist [⟨1⟩, ⟨2⟩, ⟨3⟩, ⟨4⟩] := by decide
  obtain ⟨haccesses, -, -, hmutations, hchildren, -⟩ := reconcile_sublist forest_fourTexts hrun hsub none
  exact ⟨forest_fourTexts, hrun, hsub, haccesses, hmutations, hchildren⟩

end Document

end LiveMarkup
