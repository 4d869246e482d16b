import LiveMarkup.Proofs.Document.Sparing
import LiveMarkup.Proofs.Document.Thinning
/-!
# What a reconciliation of nodes costs

Each step is charged to entries that it deals with: it counts at most as many changes as it leaves fewer entries
to be dealt with, and asks only for these to be inserted or removed (`Pass.Work.costs`). Entries that are the
same at an end of both lists are passed over at no cost, and this goes on until the lists have nothing in common
at their ends. So whatever the lists have in common in front and behind is spared, and only what stands between
is charged (`Pass.costs_run`). The first step that is not free counts at least one change, because no index has
been made then that could have misled it (`Pass.Work.mutations_lt`), and so only equal lists are free.
-/

namespace LiveMarkup

namespace Pass

section Lists

variable {E : Type} {s s' : Pass E} {site : Site E} {x y front back os ns : List E} {n : E}

/-- The lists have something in common in front and behind, and `x` and `y` stand between. -/
def Flanked (s : Pass E) (x y : List E) : Prop :=
  ∃ front back, s.old = front ++ x ++ back ∧ s.new = front ++ y ++ back

/-- Without the first entry, which is the same, two lists still have in common in front and behind what they
had, and what stands between has not become more. -/
theorem flanked_tail (ho : n :: os = front ++ x ++ back) (hn : n :: ns = front ++ y ++ back)
    (hos : (n :: os).Nodup) (hns : (n :: ns).Nodup) :
    ∃ front' x' y' back', os = front' ++ x' ++ back' ∧ ns = front' ++ y' ++ back' ∧
      x'.Sublist x ∧ y'.Sublist y := by
  cases front with
  | cons m front =>
    exact ⟨front, x, y, back, (List.cons.inj ho).2, (List.cons.inj hn).2, .refl x, .refl y⟩
  | nil =>
    cases x with
    | nil =>
      have hback : back = n :: os := ho.symm
      cases y with
      | nil =>
        have hnew : n :: ns = back := hn
        rw [hback] at hnew
        exact ⟨[], [], [], os, rfl, (List.cons.inj hnew).2, .slnil, .slnil⟩
      | cons m y =>
        -- the entry would stand twice in the new list
        rw [hn, hback] at hns
        obtain ⟨rfl, -⟩ := List.cons.inj hn
        simp at hns
    | cons m x =>
      obtain ⟨rfl, hx⟩ := List.cons.inj ho
      cases y with
      | nil =>
        have hback : back = n :: ns := hn.symm
        rw [hx, hback] at hos
        simp at hos
      | cons m' y =>
        exact ⟨[], x, y, back, hx, (List.cons.inj hn).2, List.sublist_cons_self .., List.sublist_cons_self ..⟩

/-- The same without the last entry. -/
theorem flanked_dropLast (ho : os ++ [n] = front ++ x ++ back) (hn : ns ++ [n] = front ++ y ++ back)
    (hos : (os ++ [n]).Nodup) (hns : (ns ++ [n]).Nodup) :
    ∃ front' x' y' back', os = front' ++ x' ++ back' ∧ ns = front' ++ y' ++ back' ∧
      x'.Sublist x ∧ y'.Sublist y := by
  have hreverse : ∀ l m : List E, l ++ [n] = front ++ m ++ back →
      n :: l.reverse = back.reverse ++ m.reverse ++ front.reverse := by
    intro l m h
    have := congrArg List.reverse h
    simpa using this
  have hnodup : ∀ l : List E, (l ++ [n]).Nodup → (n :: l.reverse).Nodup := by
    intro l h
    have := List.nodup_reverse.2 h
    simpa using this
  obtain ⟨front', x', y', back', hold, hnew, hx, hy⟩ :=
    flanked_tail (hreverse os x ho) (hreverse ns y hn) (hnodup os hos) (hnodup ns hns)
  refine ⟨back'.reverse, x'.reverse, y'.reverse, front'.reverse, ?_, ?_, ?_, ?_⟩
  · have := congrArg List.reverse hold
    simpa using this
  · have := congrArg List.reverse hnew
    simpa using this
  · simpa using hx.reverse
  · simpa using hy.reverse

/-- If the lists have nothing in common at their ends, everything stands between. -/
theorem Apart.eq_of_flanked (h : s.Apart) (hflanked : s.Flanked x y) : s.old = x ∧ s.new = y := by
  obtain ⟨front, back, ho, hn⟩ := hflanked
  cases front with
  | cons n front => exact absurd hn (h.head ho)
  | nil =>
    cases List.eq_nil_or_concat' back with
    | inl hnil =>
      rw [hnil] at ho hn
      simpa using And.intro ho hn
    | inr hlast =>
      obtain ⟨back, n, rfl⟩ := hlast
      rw [← List.append_assoc] at ho hn
      exact absurd hn (h.last ho)

variable [DecidableEq E]

/-- What is left to be dealt with was so before. -/
theorem Work.sublist (h : Work site s s') : s'.old.Sublist s.old ∧ s'.new.Sublist s.new := by
  cases h with
  | placeRest ho hn => simp [Pass.placeRest]
  | removeRest ho hn => simp [Pass.removeRest, new_foldl_remove]
  | exchangeLast ho hn => simp [Pass.exchangeLast]
  | swapEnds ho hn =>
    simp only [Pass.swapEnds]
    exact ⟨(List.dropLast_sublist _).trans (List.tail_sublist _),
      (List.dropLast_sublist _).trans (List.tail_sublist _)⟩
  | drop ho hn => simp [ho, remove, find, withIndex]
  | placeRun ho hn =>
    simp only [old_insertAll, find, withIndex]
    exact ⟨.refl _, List.drop_sublist _ _⟩
  | replace ho hn => simp [ho, hn]
  | pass ho hn => simp [ho, withIndex]

theorem Turn.sublist (h : Turn site s s') : s'.old.Sublist s.old ∧ s'.new.Sublist s.new := by
  cases h with
  | advance ho hn => simp [ho, hn]
  | retreat ho hn => simp [ho, hn]
  | work _ hwork => exact hwork.sublist

end Lists

/-! ### Charges -/

variable {s s' s'' : Pass NodeId} {p : NodeId} {before : Option NodeId} {entries entries' es x y : List NodeId}
  {n o : NodeId} {k k' : Nat}

/-- Only some entries may have been asked for to be inserted or removed and only their nodes may have been
moved, and a limited number of changes has been counted. -/
structure Costs (s s' : Pass NodeId) (entries : List NodeId) (most : Nat) : Prop where
  document : s.document.Sparing s'.document entries most
  accesses : ∀ access e, (access, e) ∈ s'.accesses →
    (access, e) ∈ s.accesses ∨ access = .first ∨ access = .last ∨ e ∈ entries

namespace Costs

theorem refl (s : Pass NodeId) (entries : List NodeId) (most : Nat) : Costs s s entries most :=
  ⟨.refl _ _ _, fun _ _ h => .inl h⟩

theorem trans (h : Costs s s' entries k) (h' : Costs s' s'' entries k') : Costs s s'' entries (k + k') where
  document := h.document.trans h'.document
  accesses access e hmem := by
    rcases h'.accesses access e hmem with hearlier | hother
    · exact h.accesses access e hearlier
    · exact .inr hother

theorem mono (h : Costs s s' entries k) (hsub : entries ⊆ entries') (hle : k ≤ k') :
    Costs s s' entries' k' where
  document := h.document.mono hsub hle
  accesses access e hmem := (h.accesses access e hmem).imp_right (Or.imp_right (Or.imp_right fun he => hsub he))

/-- Only the document and the accesses matter. -/
theorem of_eq (h : Costs s s' entries k) (hdocument : s''.document = s'.document)
    (haccesses : s''.accesses = s'.accesses) : Costs s s'' entries k where
  document := hdocument ▸ h.document
  accesses := haccesses ▸ h.accesses

end Costs

/-- None of the entries is a fragment. -/
def Solid (s : Pass NodeId) (entries : List NodeId) : Prop :=
  ∀ e ∈ entries, s.document.isFragment e = false

theorem Solid.costs (h : s.Solid entries) (hcosts : Costs s s' es k) : s'.Solid entries := by
  intro e he
  rw [hcosts.document.isFragment]
  exact h e he

theorem Solid.mono (h : s.Solid entries') (hsub : entries ⊆ entries') : s.Solid entries :=
  fun e he => h e (hsub he)

variable (p before)

theorem costs_find_first (s : Pass NodeId) (e : NodeId) :
    Costs s (s.find (Site.ofNodes p before) e .first).2 entries 0 := by
  refine ⟨.refl _ _ _, fun access m hmem => ?_⟩
  rcases List.mem_cons.1 hmem with heq | hmem
  · exact .inr (.inl (congrArg Prod.fst heq))
  · exact .inl hmem

theorem costs_find_last (s : Pass NodeId) (e : NodeId) :
    Costs s (s.find (Site.ofNodes p before) e .last).2 entries 0 := by
  refine ⟨.refl _ _ _, fun access m hmem => ?_⟩
  rcases List.mem_cons.1 hmem with heq | hmem
  · exact .inr (.inr (.inl (congrArg Prod.fst heq)))
  · exact .inl hmem

theorem costs_gap (s : Pass NodeId) : Costs s (s.gap (Site.ofNodes p before)).2 entries 0 := by
  unfold gap
  split
  · exact .refl s entries 0
  · exact costs_find_last p before s _
  · exact costs_find_first p before s _

theorem costs_insert (hsolid : s.Solid entries) (hn : n ∈ entries) (reference : Option NodeId) :
    Costs s (s.insert (Site.ofNodes p before) n reference) entries 1 := by
  refine ⟨Document.sparing_insertBefore hn (hsolid n hn) p reference, fun access e hmem => ?_⟩
  rcases List.mem_cons.1 hmem with heq | hmem
  · obtain rfl : e = n := congrArg Prod.snd heq
    exact .inr (.inr (.inr hn))
  · exact .inl hmem

theorem costs_insertAll (hsolid : s.Solid entries) (hes : es ⊆ entries) (reference : Option NodeId) :
    Costs s (s.insertAll (Site.ofNodes p before) es reference) entries es.length := by
  induction es generalizing s with
  | nil => exact .refl s entries 0
  | cons e rest ih =>
    have hfirst := costs_insert p before hsolid (hes (List.mem_cons_self ..)) reference
    have hrest := ih (hsolid.costs hfirst) fun m hm => hes (List.mem_cons_of_mem e hm)
    refine (hfirst.trans hrest).mono (List.Subset.refl entries) ?_
    rw [List.length_cons]
    omega

theorem costs_remove (hn : n ∈ entries) (s : Pass NodeId) :
    Costs s (s.remove (Site.ofNodes p before) n) entries 1 := by
  refine ⟨Document.sparing_removeChild hn s.document p, fun access e hmem => ?_⟩
  rcases List.mem_cons.1 hmem with heq | hmem
  · obtain rfl : e = n := congrArg Prod.snd heq
    exact .inr (.inr (.inr hn))
  · exact .inl hmem

theorem costs_foldl_remove (hes : es ⊆ entries) (s : Pass NodeId) :
    Costs s (es.foldl (fun s e => s.remove (Site.ofNodes p before) e) s) entries es.length := by
  induction es generalizing s with
  | nil => exact .refl s entries 0
  | cons e rest ih =>
    have hfirst := costs_remove p before (hes (List.mem_cons_self ..)) s
    have hrest := ih (fun m hm => hes (List.mem_cons_of_mem e hm)) (s.remove (Site.ofNodes p before) e)
    refine (hfirst.trans hrest).mono (List.Subset.refl entries) ?_
    rw [List.length_cons]
    omega

theorem costs_replace (hsolid : s.Solid entries) (hn : n ∈ entries) (ho : o ∈ entries) :
    Costs s (s.replace (Site.ofNodes p before) n o) entries 1 := by
  refine ⟨Document.sparing_replaceChild hn ho (hsolid n hn) p, fun access e hmem => ?_⟩
  rcases List.mem_cons.1 hmem with heq | hmem
  · obtain rfl : e = o := congrArg Prod.snd heq
    exact .inr (.inr (.inr ho))
  · rcases List.mem_cons.1 hmem with heq | hmem
    · obtain rfl : e = n := congrArg Prod.snd heq
      exact .inr (.inr (.inr hn))
    · exact .inl hmem

theorem costs_exchangeLast (hsolid : s.Solid entries) (ho : o ∈ entries) (hn : n ∈ entries) :
    Costs s (s.exchangeLast (Site.ofNodes p before) o n) entries 1 := by
  unfold exchangeLast
  dsimp only
  refine Costs.of_eq (iteInduction (motive := fun t : Pass NodeId => Costs s t entries 1) (fun _ => ?_)
    fun _ => costs_replace p before hsolid hn ho) rfl rfl
  split
  · rename_i e _
    have hfind : Costs s (s.find (Site.ofNodes p before) e .first).2 entries 0 :=
      costs_find_first p before s e
    exact hfind.trans (costs_insert p before (hsolid.costs hfind) hn (some e))
  · exact costs_insert p before hsolid hn before

theorem costs_swapEnds {z : NodeId} (hsolid : s.Solid entries) (ho : o ∈ entries) (hz : z ∈ entries) :
    Costs s (s.swapEnds (Site.ofNodes p before) o z) entries 2 := by
  have hfirst := Document.sparing_insertBefore hz (hsolid z hz) p (s.document.nextSibling? o)
  have hsolid' : (s.document.insertBefore p z (s.document.nextSibling? o)).isFragment o = false := by
    rw [hfirst.isFragment]
    exact hsolid o ho
  refine ⟨hfirst.trans (Document.sparing_insertBefore ho hsolid' p _), fun access e hmem => ?_⟩
  have hcases : (access, e) ∈ s.accesses ∨ e = o ∨ e = z := by
    simp only [swapEnds, insert, find, List.mem_cons, Prod.mk.injEq] at hmem
    tauto
  rcases hcases with hmem | rfl | rfl
  · exact .inl hmem
  · exact .inr (.inr (.inr ho))
  · exact .inr (.inr (.inr hz))

variable {p before}

/-- Work is charged to entries that were still to be dealt with and no longer are: it counts at most as many
changes as there are fewer of them afterwards. -/
theorem Work.costs (h : Work (Site.ofNodes p before) s s') (hsolid : s.Solid (s.old ++ s.new)) :
    ∃ k, Costs s s' (s.old ++ s.new) k ∧ k + s'.remaining ≤ s.remaining := by
  cases h with
  | placeRest ho hn =>
    have hgap : Costs s (s.gap (Site.ofNodes p before)).2 (s.old ++ s.new) 0 := costs_gap p before s
    have hall := costs_insertAll p before (hsolid.costs hgap)
      (List.subset_append_right s.old s.new) (s.gap (Site.ofNodes p before)).1
    refine ⟨_, (hgap.trans hall).of_eq rfl rfl, ?_⟩
    simp [remaining, Pass.placeRest, ho]
  | removeRest ho hn =>
    have hall := costs_foldl_remove p before (List.subset_append_left s.old s.new) s
    refine ⟨_, hall.of_eq rfl rfl, ?_⟩
    simp [remaining, Pass.removeRest, new_foldl_remove, hn]
  | exchangeLast ho hn =>
    refine ⟨1, costs_exchangeLast p before hsolid (by simp [ho]) (by simp [hn]), ?_⟩
    simp [remaining, Pass.exchangeLast, ho, hn]
  | swapEnds ho hn =>
    refine ⟨2, costs_swapEnds p before hsolid (by simp [ho]) (by simp [ho]), ?_⟩
    simp only [remaining, Pass.swapEnds, ho, hn, List.tail_cons, List.length_dropLast, List.length_cons,
      List.length_append]
    omega
  | @drop o n os ns ho hn =>
    have ho' : o ∈ s.old ++ s.new := by simp [ho]
    have hremove : Costs s (s.remove (Site.ofNodes p before) o) (s.old ++ s.new) 1 := costs_remove p before ho' s
    refine ⟨1, hremove.of_eq rfl rfl, ?_⟩
    simp only [remaining, ho, remove, find, withIndex, List.length_cons]
    omega
  | @placeRun o n os ns i ho hn hplace hlt hin =>
    have hsolid' : s.withIndex.Solid (s.old ++ s.new) := hsolid
    have hfind : Costs s.withIndex (s.withIndex.find (Site.ofNodes p before) o .first).2
      (s.old ++ s.new) 0 := costs_find_first p before s.withIndex o
    have hmem : s.new.take (i - s.settled) ⊆ s.old ++ s.new := fun e he =>
      List.mem_append_right _ (List.mem_of_mem_take he)
    have hall := costs_insertAll p before (hsolid'.costs hfind) hmem
      (some (s.withIndex.find (Site.ofNodes p before) o .first).1)
    obtain ⟨hdocument, haccesses⟩ := hfind.trans hall
    refine ⟨_, ⟨hdocument, haccesses⟩, ?_⟩
    simp only [remaining, old_insertAll, find, withIndex, List.length_take, List.length_drop]
    omega
  | @replace o n os ns i ho hn =>
    have ho' : o ∈ s.old ++ s.new := by simp [ho]
    have hn' : n ∈ s.old ++ s.new := by simp [hn]
    have hreplace : Costs s (s.replace (Site.ofNodes p before) n o) (s.old ++ s.new) 1 :=
      costs_replace p before hsolid hn' ho'
    refine ⟨1, hreplace.of_eq rfl rfl, ?_⟩
    simp only [remaining, ho, hn, List.length_cons]
    omega
  | pass ho hn =>
    refine ⟨0, (Costs.refl s _ 0).of_eq rfl rfl, ?_⟩
    simp only [remaining, ho, withIndex, List.length_cons]
    omega

/-- What a step costs is charged to what stands between the common ends, which has not become more then. -/
theorem Turn.costs (h : Turn (Site.ofNodes p before) s s') (hflanked : s.Flanked x y) (ho : s.old.Nodup)
    (hn : s.new.Nodup) (hsolid : s.Solid (x ++ y)) :
    ∃ x' y' k, s'.Flanked x' y' ∧ x'.Sublist x ∧ y'.Sublist y ∧ Costs s s' (x ++ y) k ∧
      k + (x'.length + y'.length) ≤ x.length + y.length := by
  cases h with
  | advance ho' hn' =>
    obtain ⟨front, back, hold, hnew⟩ := hflanked
    rw [ho'] at hold ho
    rw [hn'] at hnew hn
    obtain ⟨front', x', y', back', hold', hnew', hx, hy⟩ := flanked_tail hold hnew ho hn
    have hxle := hx.length_le
    have hyle := hy.length_le
    exact ⟨x', y', 0, ⟨front', back', hold', hnew'⟩, hx, hy, (Costs.refl s _ 0).of_eq rfl rfl, by omega⟩
  | retreat ho' hn' =>
    obtain ⟨front, back, hold, hnew⟩ := hflanked
    rw [ho'] at hold ho
    rw [hn'] at hnew hn
    obtain ⟨front', x', y', back', hold', hnew', hx, hy⟩ := flanked_dropLast hold hnew ho hn
    have hxle := hx.length_le
    have hyle := hy.length_le
    exact ⟨x', y', 0, ⟨front', back', hold', hnew'⟩, hx, hy, (Costs.refl s _ 0).of_eq rfl rfl, by omega⟩
  | work hapart hwork =>
    obtain ⟨rfl, rfl⟩ := hapart.eq_of_flanked hflanked
    obtain ⟨k, hcosts, hle⟩ := hwork.costs hsolid
    obtain ⟨hold, hnew⟩ := hwork.sublist
    exact ⟨s'.old, s'.new, k, ⟨[], [], by simp, by simp⟩, hold, hnew, hcosts, hle⟩

/-- A run costs no more than there is between the common ends, and spares everything else. -/
theorem costs_run (hflanked : s.Flanked x y) (ho : s.old.Nodup) (hn : s.new.Nodup)
    (hsolid : s.Solid (x ++ y)) :
    Costs s (s.run (Site.ofNodes p before)) (x ++ y) (x.length + y.length) := by
  fun_induction run s (Site.ofNodes p before) generalizing x y with
  | case1 s _ => exact .refl s _ _
  | case2 s hmore ih =>
    have hturn := turn_step s (Site.ofNodes p before) hmore
    obtain ⟨hold, hnew⟩ := hturn.sublist
    obtain ⟨x', y', k, hflanked', hx, hy, hcosts, hle⟩ := hturn.costs hflanked ho hn hsolid
    have hsub : x' ++ y' ⊆ x ++ y := (hx.append hy).subset
    have hrest := ih hflanked' (ho.sublist hold) (hn.sublist hnew) ((hsolid.costs hcosts).mono hsub)
    exact (hcosts.trans (hrest.mono hsub (Nat.le_refl _))).mono (List.Subset.refl _) hle

/-- What may not have been moved has not been asked for to be inserted or removed. -/
theorem Costs.spares {d : Document} {a b : List NodeId} (h : Costs (start d a b) s' entries k)
    {access : Access} (hfirst : access ≠ .first) (hlast : access ≠ .last) (hn : n ∉ entries) :
    (access, n) ∉ s'.accesses := by
  intro hmem
  rcases h.accesses access n hmem with hstart | hother | hother | hentry
  · cases hstart
  · exact hfirst hother
  · exact hlast hother
  · exact hn hentry

/-! ### What is not free -/

theorem mutations_insertAll (s : Pass NodeId) (reference : Option NodeId) :
    (s.insertAll (Site.ofNodes p before) es reference).document.mutations =
      s.document.mutations + es.length := by
  induction es generalizing s with
  | nil => rfl
  | cons e rest ih =>
    have hone : (s.insert (Site.ofNodes p before) e reference).document.mutations =
        s.document.mutations + 1 := Document.mutations_insertBefore reference
    have hrest := ih (s.insert (Site.ofNodes p before) e reference)
    rw [hone] at hrest
    rw [List.length_cons]
    exact hrest.trans (by omega)

theorem mutations_swapEnds (s : Pass NodeId) (o z : NodeId) :
    (s.swapEnds (Site.ofNodes p before) o z).document.mutations = s.document.mutations + 2 := by
  simp only [swapEnds, insert, find, Site.ofNodes, Document.mutations_insertBefore]

/-- In an index that is made now, the first old entry has no position that has been passed. -/
theorem settled_lt_of_place? {os ns : List NodeId} {i : Nat} (hindex : s.index = none) (hapart : s.Apart)
    (ho : s.old = o :: os) (hn : s.new = n :: ns) (hplace : s.place? o = some i) :
    s.settled < i ∧ i < s.settled + s.new.length := by
  simp only [place?, hindex, Option.getD_none, Index.position?, Option.map_eq_some_iff] at hplace
  obtain ⟨j, hj, rfl⟩ := hplace
  have hget := getElem?_of_lastPosition? hj
  have hlt : j < s.new.length := (List.getElem?_eq_some_iff.1 hget).1
  have hpos : j ≠ 0 := by
    rintro rfl
    rw [hn, List.getElem?_cons_zero] at hget
    exact hapart.head ho (Option.some.inj hget ▸ hn)
  omega

/-- The first work that is done counts, because the old entries are still children of the container. -/
theorem Work.mutations_lt (h : Work (Site.ofNodes p before) s s') (hapart : s.Apart)
    (hindex : s.index = none) (hparent : ∀ e ∈ s.old, s.document.parent? e = some p) :
    s.document.mutations < s'.document.mutations := by
  cases h with
  | placeRest ho hn =>
    have hgap : Costs s (s.gap (Site.ofNodes p before)).2 [] 0 := costs_gap p before s
    have hleast := hgap.document.least
    have hall : (s.placeRest (Site.ofNodes p before)).document.mutations =
        (s.gap (Site.ofNodes p before)).2.document.mutations + s.new.length := mutations_insertAll _ _
    have hpos := List.length_pos_iff.2 hn
    omega
  | removeRest ho hn =>
    obtain ⟨o, os, hold⟩ := List.exists_cons_of_ne_nil ho
    have hfirst := Document.mutations_removeChild (hparent o (by simp [hold]))
    have hrest : Costs (s.remove (Site.ofNodes p before) o) _ os os.length :=
      costs_foldl_remove p before (List.Subset.refl os) _
    have hleast := hrest.document.least
    have hall : (s.removeRest (Site.ofNodes p before)).document =
        (os.foldl (fun s e => s.remove (Site.ofNodes p before) e)
          (s.remove (Site.ofNodes p before) o)).document := by
      show (s.old.foldl (fun s e => s.remove (Site.ofNodes p before) e) s).document = _
      rw [hold, List.foldl_cons]
    have hremoved : (s.remove (Site.ofNodes p before) o).document = s.document.removeChild p o := rfl
    rw [hall]
    rw [hremoved, hfirst] at hleast
    omega
  | @exchangeLast o n ho hn =>
    have hne : n ≠ o := by
      rintro rfl
      exact hapart.head ho hn
    have hreplace : (s.exchangeLast (Site.ofNodes p before) o n).document =
        s.document.replaceChild p n o := by
      simp only [Pass.exchangeLast, hindex, Bool.false_eq_true, if_false]
      rfl
    rw [hreplace, Document.mutations_replaceChild (hparent o (by simp [ho])) hne]
    omega
  | swapEnds ho hn =>
    rw [mutations_swapEnds]
    omega
  | @drop o n os ns ho hn =>
    have hremove := Document.mutations_removeChild (hparent o (by simp [ho]))
    show s.document.mutations < (s.document.removeChild p o).mutations
    omega
  | @placeRun o n os ns i ho hn hplace hlt hin =>
    have hall : ∀ reference, ((s.withIndex.find (Site.ofNodes p before) o .first).2.insertAll
        (Site.ofNodes p before) (s.new.take (i - s.settled)) reference).document.mutations =
        s.document.mutations + (s.new.take (i - s.settled)).length := fun reference =>
      mutations_insertAll _ reference
    simp only [hall, List.length_take]
    omega
  | @replace o n os ns i ho hn =>
    have hne : n ≠ o := by
      rintro rfl
      exact hapart.head ho hn
    have hreplace := Document.mutations_replaceChild (hparent o (by simp [ho])) hne
    show s.document.mutations < (s.document.replaceChild p n o).mutations
    omega
  | pass ho hn hplace hout => exact absurd (settled_lt_of_place? hindex hapart ho hn hplace) hout

/-- A run over lists that are not equal counts a change. -/
theorem mutations_lt_run (hne : s.old ≠ s.new) (hindex : s.index = none)
    (hparent : ∀ e ∈ s.old, s.document.parent? e = some p) (ho : s.old.Nodup) (hn : s.new.Nodup)
    (hsolid : s.Solid (s.old ++ s.new)) :
    s.document.mutations < (s.run (Site.ofNodes p before)).document.mutations := by
  fun_induction run s (Site.ofNodes p before) with
  | case1 s hdone =>
    rw [isDone, Bool.and_eq_true, List.isEmpty_iff, List.isEmpty_iff] at hdone
    exact absurd (hdone.1.trans hdone.2.symm) hne
  | case2 s hmore ih =>
    have hturn := turn_step s (Site.ofNodes p before) hmore
    obtain ⟨hold, hnew⟩ := hturn.sublist
    have hsub := (hold.append hnew).subset
    have ho' := ho.sublist hold
    have hn' := hn.sublist hnew
    generalize s.step (Site.ofNodes p before) = s' at *
    cases hturn with
    | @advance n os ns hfirst hfirst' =>
      rw [hfirst, hfirst'] at hne
      exact ih (fun heq => hne (congrArg (n :: ·) heq)) hindex (fun e he => hparent e (hold.subset he)) ho' hn'
        (hsolid.mono hsub)
    | @retreat n os ns hlast hlast' =>
      rw [hlast, hlast'] at hne
      exact ih (fun heq => hne (congrArg (· ++ [n]) heq)) hindex (fun e he => hparent e (hold.subset he)) ho'
        hn' (hsolid.mono hsub)
    | work hapart hwork =>
      have hfirst := hwork.mutations_lt hapart hindex hparent
      obtain ⟨k, hcosts, -⟩ := hwork.costs hsolid
      have hrest : Costs s' (s'.run (Site.ofNodes p before)) _ _ :=
        costs_run ⟨[], [], by simp, by simp⟩ ho' hn' ((hsolid.costs hcosts).mono hsub)
      exact Nat.lt_of_lt_of_le hfirst hrest.document.least

/-- A run counts nothing if and only if the lists are equal. -/
theorem mutations_run_eq_iff (hindex : s.index = none)
    (hparent : ∀ e ∈ s.old, s.document.parent? e = some p) (ho : s.old.Nodup) (hn : s.new.Nodup)
    (hsolid : s.Solid (s.old ++ s.new)) :
    (s.run (Site.ofNodes p before)).document.mutations = s.document.mutations ↔ s.old = s.new := by
  constructor
  · intro hfree
    by_contra hne
    have hlt : s.document.mutations < (s.run (Site.ofNodes p before)).document.mutations :=
      mutations_lt_run hne hindex hparent ho hn hsolid
    omega
  · intro heq
    have hnothing : Costs s (s.run (Site.ofNodes p before)) ([] ++ []) ([].length + [].length) :=
      costs_run ⟨s.old, [], by simp, by simp [heq]⟩ ho hn fun e he => nomatch he
    exact Nat.le_antisymm hnothing.document.atMost hnothing.document.least

end Pass

namespace Document

variable {d : Document} {parent : NodeId} {ahead behind a b front back x y : List NodeId}

/-- An entry that both lists have in front or behind stands between in neither of them. -/
theorem not_mem_between {n : NodeId} (ha : (front ++ x ++ back).Nodup) (hb : (front ++ y ++ back).Nodup)
    (hn : n ∈ front ++ back) : n ∉ x ++ y := by
  have hapart : ∀ {between : List NodeId}, (front ++ between ++ back).Nodup → n ∉ between := by
    intro between hnd hmem
    rw [List.append_assoc] at hnd
    rcases List.mem_append.1 hn with hfront | hback
    · exact List.disjoint_of_nodup_append hnd hfront (List.mem_append_left _ hmem)
    · exact List.disjoint_of_nodup_append (List.nodup_append.1 hnd).2.1 hmem hback
  rw [List.mem_append, not_or]
  exact ⟨hapart ha, hapart hb⟩

/-- Reconciling a run of children to another list of nodes spares whatever the two lists have in common in front
and behind, however much of it is taken as `front` and `back`: these nodes are not asked for to be inserted or
removed, and among the children of every node they and all others that are not in `x` or `y` stand as they did.
Not more changes are counted than there are entries between, and none only if the lists are equal. Neither the
node in front of which the run is said to end nor where the new nodes come from matters, and changes that are
refused are counted as well. -/
theorem reconcile_spares_common_ends (hf : d.Forest) (hrun : d.children parent = ahead ++ a ++ behind)
    (hb : b.Nodup) (hsolid : ∀ n ∈ b, d.isFragment n = false) (before : Option NodeId)
    (hold : a = front ++ x ++ back) (hnew : b = front ++ y ++ back) :
    let done := d.reconcile (Site.ofNodes parent before) a b
    (∀ n ∈ front ++ back, (.insert, n) ∉ done.accesses ∧ (.remove, n) ∉ done.accesses) ∧
    (∀ q, (done.document.children q).filter (· ∉ x ++ y) = (d.children q).filter (· ∉ x ++ y)) ∧
    (∀ n, n ∉ x ++ y → done.document.parent? n = d.parent? n) ∧
    done.document.mutations ≤ d.mutations +
      ((a.length - front.length - back.length) + (b.length - front.length - back.length)) ∧
    (done.document.mutations = d.mutations ↔ a = b) := by
  intro done
  obtain ⟨ha, hparent⟩ := hf.run hrun
  have hsolids : (Pass.start d a b).Solid (a ++ b) := by
    intro n hn
    rcases List.mem_append.1 hn with hn | hn
    · exact hf.solid (hparent n hn)
    · exact hsolid n hn
  have hsub : x ++ y ⊆ a ++ b := by
    intro n hn
    rw [hold, hnew]
    simp only [List.mem_append] at hn ⊢
    tauto
  have hcosts : Pass.Costs (Pass.start d a b) done (x ++ y) (x.length + y.length) :=
    Pass.costs_run ⟨front, back, hold, hnew⟩ ha hb (hsolids.mono hsub)
  refine ⟨fun n hn => ?_, hcosts.document.children, hcosts.document.parent?, ?_,
    Pass.mutations_run_eq_iff rfl hparent ha hb hsolids⟩
  · have hbetween := not_mem_between (hold ▸ ha) (hnew ▸ hb) hn
    exact ⟨hcosts.spares (by decide) (by decide) hbetween, hcosts.spares (by decide) (by decide) hbetween⟩
  · have hmost := hcosts.document.atMost
    have hmutations : (Pass.start d a b).document.mutations = d.mutations := rfl
    rw [hold, hnew]
    simp only [List.length_append]
    omega

/-- Of four texts the two in the middle change places. -/
theorem reconcile_spares_common_ends_of_four_texts :
    let done := fourTexts.reconcile (Site.ofNodes ⟨0⟩ none) [⟨1⟩, ⟨2⟩, ⟨3⟩, ⟨4⟩] [⟨1⟩, ⟨3⟩, ⟨2⟩, ⟨4⟩]
    fourTexts.Forest ∧ fourTexts.children ⟨0⟩ = [] ++ [⟨1⟩, ⟨2⟩, ⟨3⟩, ⟨4⟩] ++ [] ∧
      [(⟨1⟩ : NodeId), ⟨3⟩, ⟨2⟩, ⟨4⟩].Nodup ∧
      (∀ n ∈ [(⟨1⟩ : NodeId), ⟨3⟩, ⟨2⟩, ⟨4⟩], fourTexts.isFragment n = false) ∧
      [(⟨1⟩ : NodeId), ⟨2⟩, ⟨3⟩, ⟨4⟩] = [⟨1⟩] ++ [⟨2⟩, ⟨3⟩] ++ [⟨4⟩] ∧
      [(⟨1⟩ : NodeId), ⟨3⟩, ⟨2⟩, ⟨4⟩] = [⟨1⟩] ++ [⟨3⟩, ⟨2⟩] ++ [⟨4⟩] ∧
      (∀ n ∈ [⟨1⟩] ++ [⟨4⟩], (.insert, n) ∉ done.accesses ∧ (.remove, n) ∉ done.accesses) ∧
      done.document.mutations ≤ fourTexts.mutations + 4 := by
  intro done
  have hrun : fourTexts.children ⟨0⟩ = [] ++ [⟨1⟩, ⟨2⟩, ⟨3⟩, ⟨4⟩] ++ [] := by decide
  have hb : [(⟨1⟩ : NodeId), ⟨3⟩, ⟨2⟩, ⟨4⟩].Nodup := by decide
  have hsolid : ∀ n ∈ [(⟨1⟩ : NodeId), ⟨3⟩, ⟨2⟩, ⟨4⟩], fourTexts.isFragment n = false := by decide
  have hold : [(⟨1⟩ : NodeId), ⟨2⟩, ⟨3⟩, ⟨4⟩] = [⟨1⟩] ++ [⟨2⟩, ⟨3⟩] ++ [⟨4⟩] := rfl
  have hnew : [(⟨1⟩ : NodeId), ⟨3⟩, ⟨2⟩, ⟨4⟩] = [⟨1⟩] ++ [⟨3⟩, ⟨2⟩] ++ [⟨4⟩] := rfl
  obtain ⟨hspared, -, -, hmost, -⟩ :=
    reconcile_spares_common_ends forest_fourTexts hrun hb hsolid none hold hnew
  exact ⟨forest_fourTexts, hrun, hb, hsolid, hold, hnew, hspared, hmost⟩

end Document

end LiveMarkup
