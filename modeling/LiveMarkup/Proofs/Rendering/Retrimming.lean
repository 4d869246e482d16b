import LiveMarkup.Proofs.Rendering.Likeness
/-!
# Changing what has been added

When a node of trimmed content is changed, the result is the content with another trimming: other
content for an element (`graftAll_refill_put`), or another value for an attribute, up to the order
(`alike_adorn_put`). Conversely, what is found in trimmed content is a node of the content itself or in
what has been added (`occurs_graftAll_put`), and what is put in front of a node that stays in sight is
beside it (`row_graftAll_put`).
-/

namespace LiveMarkup

open Markup (Tree Tag)

namespace Plant

variable {p q r : Plant} {ps qs row : List Plant} {n : NodeId}

/-- A plant is one of some plants, or below one of them. -/
def Occurs (q : Plant) (ps : List Plant) : Prop :=
  ∃ row, Row ps row ∧ q ∈ row

theorem occurs_of_mem (h : q ∈ ps) : q.Occurs ps :=
  ⟨ps, .self ps, h⟩

theorem occurs_nil : ¬ q.Occurs [] := by
  rintro ⟨row, hrow, hq⟩
  cases hrow with
  | self => cases hq
  | inside mem _ => cases mem

theorem occurs_inside {id : NodeId} {tag : Tag} {children : List Plant}
    (hmem : .element id tag children ∈ ps) (h : q.Occurs children) : q.Occurs ps := by
  obtain ⟨row, hrow, hq⟩ := h
  exact ⟨row, .inside hmem hrow, hq⟩

theorem occurs_iff : q.Occurs ps ↔ q ∈ ps ∨ ∃ id tag children, .element id tag children ∈ ps ∧
    q.Occurs children := by
  constructor
  · rintro ⟨row, hrow, hq⟩
    cases hrow with
    | self => exact .inl hq
    | inside mem h => exact .inr ⟨_, _, _, mem, row, h, hq⟩
  · rintro (hq | ⟨id, tag, children, hmem, h⟩)
    · exact occurs_of_mem hq
    · exact occurs_inside hmem h

theorem Occurs.mono (h : q.Occurs ps) (hsub : ps ⊆ qs) : q.Occurs qs := by
  rcases occurs_iff.1 h with hq | ⟨id, tag, children, hmem, h⟩
  · exact occurs_of_mem (hsub hq)
  · exact occurs_inside (hsub hmem) h

theorem occurs_append : q.Occurs (ps ++ qs) ↔ q.Occurs ps ∨ q.Occurs qs := by
  constructor
  · intro h
    rcases occurs_iff.1 h with hq | ⟨id, tag, children, hmem, h⟩
    · exact (List.mem_append.1 hq).imp occurs_of_mem occurs_of_mem
    · exact (List.mem_append.1 hmem).imp (occurs_inside · h) (occurs_inside · h)
  · exact fun h => h.elim (·.mono (List.subset_append_left ..)) (·.mono (List.subset_append_right ..))

theorem occurs_element {id : NodeId} {tag : Tag} {children : List Plant} :
    q.Occurs [.element id tag children] ↔ q = .element id tag children ∨ q.Occurs children := by
  constructor
  · intro h
    rcases occurs_iff.1 h with hq | ⟨id', tag', children', hmem, h⟩
    · exact .inl (List.mem_singleton.1 hq)
    · cases List.mem_singleton.1 hmem
      exact .inr h
  · rintro (rfl | h)
    · exact occurs_of_mem (List.mem_singleton_self _)
    · exact occurs_inside (List.mem_singleton_self _) h

theorem occurs_leaf (hr : ∀ id tag children, r ≠ .element id tag children) (h : q.Occurs [r]) :
    q = r := by
  rcases occurs_iff.1 h with hq | ⟨id', tag', children', hmem, -⟩
  · exact List.mem_singleton.1 hq
  · exact absurd (List.mem_singleton.1 hmem).symm (hr _ _ _)

theorem Occurs.id_mem (h : q.Occurs ps) : q.id ∈ idsAll ps := by
  obtain ⟨row, hrow, hq⟩ := h
  exact hrow.ids_subset (id_mem_idsAll hq)

theorem exists_occurs (h : n ∈ idsAll ps) : ∃ q : Plant, q.Occurs ps ∧ q.id = n := by
  obtain ⟨row, hrow, q, hq, hid⟩ := exists_row.2 ps h
  exact ⟨q, ⟨row, hrow, hq⟩, hid⟩

/-- A path leads to every plant that occurs. -/
theorem Occurs.exists_follow (h : q.Occurs ps) : ∃ path, follow ps path = some q := by
  obtain ⟨row, hrow, hq⟩ := h
  induction hrow with
  | self ps =>
    obtain ⟨i, hi⟩ := List.getElem?_of_mem hq
    exact ⟨[i], follow_cons.2 ⟨q, hi, rfl⟩⟩
  | @inside ps row children id tag mem _ ih =>
    obtain ⟨path, hpath⟩ := ih hq
    obtain ⟨i, hi⟩ := List.getElem?_of_mem mem
    cases path with
    | nil => cases hpath
    | cons j path => exact ⟨i :: j :: path, follow_cons.2 ⟨_, hi, hpath⟩⟩

/-- What occurs is told apart by its identity, if no node occurs twice. -/
theorem Occurs.eq_of_follow (hnd : (idsAll ps).Nodup) (h : q.Occurs ps) {path : List Nat}
    (hr : follow ps path = some r) (hid : q.id = r.id) : q = r := by
  obtain ⟨path', hq⟩ := h.exists_follow
  have hpath := Plant.eq_of_follow hnd hq hr hid
  rw [hpath, hr] at hq
  exact (Option.some.inj hq).symm

end Plant

namespace Trimming

variable {t t' : Trimming NodeId Plant} {n : NodeId} {p q : Plant} {ps new : List Plant}

/-- What is found in trimmed content is a node of the content, with the content that it has been given
if there is any, or it is in what has been added. -/
theorem occurs_put :
    (∀ p q : Plant, q.Occurs (p.graft t.put) →
      (q.id ∈ p.ids ∧ ∀ new, t.content q.id = some new → q.children = new ∨ q.children = []) ∨
      (∃ k, q.Occurs (t.before k)) ∨ ∃ k new, t.content k = some new ∧ q.Occurs new) ∧
    ∀ (ps : List Plant) (q : Plant), q.Occurs (Plant.graftAll t.put ps) →
      (q.id ∈ Plant.idsAll ps ∧ ∀ new, t.content q.id = some new → q.children = new ∨ q.children = []) ∨
      (∃ k, q.Occurs (t.before k)) ∨ ∃ k new, t.content k = some new ∧ q.Occurs new := by
  refine Plant.induct ?_ ?_ ?_ ?_ ?_
  · intro id tag children ih q h
    rw [Plant.graft, put, Plant.occurs_append, Plant.occurs_element] at h
    rw [Plant.ids]
    rcases h with h | rfl | h
    · exact .inr (.inl ⟨id, h⟩)
    · refine .inl ⟨List.mem_cons_self .., fun new hnew => .inl ?_⟩
      rw [Plant.id_element] at hnew
      rw [hnew]
      rfl
    · cases hc : t.content id with
      | some new =>
        rw [hc] at h
        exact .inr (.inr ⟨id, new, hc, h⟩)
      | none =>
        rw [hc] at h
        exact (ih q h).imp_left fun h => ⟨List.mem_cons_of_mem _ h.1, h.2⟩
  · intro id data q h
    rw [Plant.graft, put, Plant.occurs_append] at h
    rw [Plant.ids]
    rcases h with h | h
    · exact .inr (.inl ⟨id, h⟩)
    · rw [Plant.occurs_leaf (fun _ _ _ he => by cases he) h]
      exact .inl ⟨List.mem_singleton_self _, fun _ _ => .inr rfl⟩
  · intro id data q h
    rw [Plant.graft, put, Plant.occurs_append] at h
    rw [Plant.ids]
    rcases h with h | h
    · exact .inr (.inl ⟨id, h⟩)
    · rw [Plant.occurs_leaf (fun _ _ _ he => by cases he) h]
      exact .inl ⟨List.mem_singleton_self _, fun _ _ => .inr rfl⟩
  · intro q h
    rw [Plant.graftAll_nil] at h
    exact absurd h Plant.occurs_nil
  · intro p ps ihp ihps q h
    rw [Plant.graftAll_cons, Plant.occurs_append] at h
    rw [Plant.idsAll_cons]
    rcases h with h | h
    · exact (ihp q h).imp_left fun h => ⟨List.mem_append_left _ h.1, h.2⟩
    · exact (ihps q h).imp_left fun h => ⟨List.mem_append_right _ h.1, h.2⟩

theorem occurs_graftAll_put (h : q.Occurs (Plant.graftAll t.put ps)) :
    (q.id ∈ Plant.idsAll ps ∧ ∀ new, t.content q.id = some new → q.children = new ∨ q.children = []) ∨
      (∃ k, q.Occurs (t.before k)) ∨ ∃ k new, t.content k = some new ∧ q.Occurs new :=
  occurs_put.2 ps q h

/-- Nodes come from the content or from what has been added. -/
theorem mem_idsAll_put (h : n ∈ Plant.idsAll (Plant.graftAll t.put ps)) :
    n ∈ Plant.idsAll ps ∨ (∃ k, n ∈ Plant.idsAll (t.before k)) ∨
      ∃ k new, t.content k = some new ∧ n ∈ Plant.idsAll new := by
  obtain ⟨q, hq, rfl⟩ := Plant.exists_occurs h
  rcases occurs_graftAll_put hq with h | ⟨k, h⟩ | ⟨k, new, hk, h⟩
  · exact .inl h.1
  · exact .inr (.inl ⟨k, h.id_mem⟩)
  · exact .inr (.inr ⟨k, new, hk, h.id_mem⟩)

/-- What is put in front of a node that stays in sight is beside it. -/
theorem row_graftAll_put {path : List Nat} {r : Plant} (h : Plant.follow ps path = some r)
    (habove : ∀ ρ r', ρ <+: path → ρ ≠ path → Plant.follow ps ρ = some r' →
      t.content r'.id = Option.none) :
    ∃ row, Plant.Row (Plant.graftAll t.put ps) row ∧ t.before r.id ⊆ row ∧
      r.id ∈ row.map Plant.id := by
  induction path generalizing ps with
  | nil => cases h
  | cons i path ih =>
    obtain ⟨q, hq, hr⟩ := Plant.follow_cons.1 h
    have hmem : q ∈ ps := List.mem_of_getElem? hq
    cases path with
    | nil =>
      obtain rfl : q = r := Option.some.inj hr
      have hsub : q.graft t.put ⊆ Plant.graftAll t.put ps := fun x hx =>
        Plant.mem_graftAll.2 ⟨q, hmem, hx⟩
      refine ⟨_, .self _, fun x hx => hsub ?_, mem_map_id_graftAll_put (List.mem_map_of_mem hmem)⟩
      cases q <;>
      · rw [Plant.graft, put]
        exact List.mem_append_left _ hx
    | cons j path =>
      have hnone := habove [i] q (List.cons_prefix_cons.2 ⟨rfl, List.nil_prefix⟩) (by simp)
        (Plant.follow_cons.2 ⟨q, hq, rfl⟩)
      cases q with
      | text id data =>
        obtain ⟨c, hc, -⟩ := Plant.follow_cons.1 (Plant.at?_cons ▸ hr)
        simp [Plant.children] at hc
      | comment id data =>
        obtain ⟨c, hc, -⟩ := Plant.follow_cons.1 (Plant.at?_cons ▸ hr)
        simp [Plant.children] at hc
      | element id tag children =>
        obtain ⟨row, hrow, hbefore, hid⟩ := @ih children hr fun ρ r' hρ hne hr' => by
          refine habove (i :: ρ) r' (List.cons_prefix_cons.2 ⟨rfl, hρ⟩) (by simpa using hne) ?_
          cases ρ with
          | nil => cases hr'
          | cons k ρ => exact Plant.follow_cons.2 ⟨_, hq, hr'⟩
        rw [Plant.id_element] at hnone
        refine ⟨row, ?_, hbefore, hid⟩
        have hput : Plant.element id { tag with attributes := tag.attributes ++ t.attributes id }
            (Plant.graftAll t.put children) ∈ Plant.graftAll t.put ps := by
          refine Plant.mem_graftAll.2 ⟨_, hmem, ?_⟩
          rw [Plant.graft, put, hnone]
          exact List.mem_append_right _ (List.mem_singleton_self _)
        exact .inside hput hrow

/-- An element gets other content, whatever it has been given before. -/
theorem graftAll_refill_put (ht : t.Avoids n) :
    Plant.graftAll (Plant.fill n new) (Plant.graftAll t.put ps)
      = Plant.graftAll
          ({ t with content := fun k => if k = n then some new else t.content k }).put ps := by
  refine graftAll_put ht (fun q hq => ?_) (fun id tag children => ?_) (fun id data => ?_)
    fun id data => ?_
  · cases q with
    | element id tag children => rw [Plant.fill, if_neg (by exact hq)]
    | text | comment => rfl
  · by_cases hid : id = n <;> simp [Plant.fill, put, hid]
  · rfl
  · rfl

/-- An attribute gets another value. -/
theorem alike_adorn_put (ht : t.Avoids n) (hbefore : ∀ k, t'.before k = t.before k)
    (hcontent : ∀ k, t'.content k = t.content k) (hother : ∀ k, k ≠ n → t'.attributes k = t.attributes k)
    {f : List (String × String) → List (String × String)}
    (hf : ∀ tag children, (Plant.element n tag children).Occurs ps →
      (f (tag.attributes ++ t.attributes n)).Perm (tag.attributes ++ t'.attributes n)) :
    Plant.AlikeAll (Plant.graftAll (Plant.adorn n f) (Plant.graftAll t.put ps))
      (Plant.graftAll t'.put ps) := by
  obtain ⟨hfree, hfree'⟩ := ht.graftAll_eq (f := Plant.adorn n f) fun q hq => by
    cases q with
    | element id tag children => rw [Plant.adorn, if_neg (by exact hq)]
    | text | comment => rfl
  have hleaf : ∀ q : Plant, (∀ id tag children, q ≠ .element id tag children) → ∀ k,
      Plant.graftAll (Plant.adorn n f) (t.before k ++ [q]) = t'.before k ++ [q] := by
    intro q hq k
    rw [Plant.graftAll_append, hfree, hbefore, Plant.graftAll_cons, Plant.graftAll_nil]
    cases q with
    | element id tag children => exact absurd rfl (hq id tag children)
    | text | comment => rfl
  have hall : (∀ q : Plant, (∀ tag children, (Plant.element n tag children).Occurs [q] →
        (f (tag.attributes ++ t.attributes n)).Perm (tag.attributes ++ t'.attributes n)) →
        Plant.AlikeAll (Plant.graftAll (Plant.adorn n f) (q.graft t.put)) (q.graft t'.put)) ∧
      ∀ qs : List Plant, (∀ tag children, (Plant.element n tag children).Occurs qs →
        (f (tag.attributes ++ t.attributes n)).Perm (tag.attributes ++ t'.attributes n)) →
        Plant.AlikeAll (Plant.graftAll (Plant.adorn n f) (Plant.graftAll t.put qs))
          (Plant.graftAll t'.put qs) := by
    refine Plant.induct ?_ ?_ ?_ ?_ ?_
    · intro id tag children ih hocc
      have hchildren := ih fun tag' children' h => hocc tag' children' (Plant.occurs_element.2 (.inr h))
      rw [Plant.graft, Plant.graft, put, put, Plant.graftAll_append, hfree, hbefore, hcontent,
        Plant.graftAll_cons, Plant.graftAll_nil, List.append_nil, Plant.graft]
      refine (Plant.AlikeAll.refl _).append (.single (Plant.alike_element ?_ ?_))
      · by_cases hid : id = n
        · subst hid
          rw [if_pos rfl]
          exact ⟨rfl, rfl, hocc tag children (Plant.occurs_element.2 (.inl rfl))⟩
        · rw [if_neg hid, hother id hid]
          exact .refl _
      · cases hc : t.content id with
        | none => exact hchildren
        | some new =>
          rw [Option.getD_some, Option.getD_some, hfree' id new hc]
          exact .refl _
    · intro id data _
      rw [Plant.graft, Plant.graft, put, put, hleaf _ fun _ _ _ he => by cases he]
      exact .refl _
    · intro id data _
      rw [Plant.graft, Plant.graft, put, put, hleaf _ fun _ _ _ he => by cases he]
      exact .refl _
    · intro _
      rw [Plant.graftAll_nil, Plant.graftAll_nil, Plant.graftAll_nil]
      trivial
    · intro q qs ihq ihqs hocc
      rw [Plant.graftAll_cons, Plant.graftAll_cons, Plant.graftAll_append]
      refine (ihq fun tag children h => ?_).append (ihqs fun tag children h => ?_)
      · exact hocc tag children (h.mono (by simp))
      · exact hocc tag children (h.mono (List.subset_cons_self ..))
  exact hall.2 ps hf

end Trimming

/-! ### A list of attributes -/

/-- Gives the attribute of a name a value in some attributes, or takes it away. -/
def revalue (name : String) (value : Option String) (pairs : List (String × String)) :
    List (String × String) :=
  match value with
  | none => pairs.filter (·.1 != name)
  | some v =>
    if pairs.any (·.1 == name) then pairs.map fun a => if a.1 = name then (name, v) else a
    else pairs ++ [(name, v)]

section Revalue

variable {name : String} {value value' : Option String} {l l' : List (String × String)}

theorem perm_revalue (h : l.Perm l') : (revalue name value l).Perm (revalue name value l') := by
  cases value with
  | none => exact h.filter _
  | some v =>
    rw [revalue, revalue, show l.any (·.1 == name) = l'.any (·.1 == name) from h.any_eq]
    split
    · exact h.map _
    · exact h.append_right _

theorem filter_of_absent (h : ∀ a ∈ l, a.1 ≠ name) : l.filter (·.1 != name) = l :=
  List.filter_eq_self.2 fun a ha => by simpa using h a ha

theorem map_of_absent {v : String} (h : ∀ a ∈ l, a.1 ≠ name) :
    (l.map fun a => if a.1 = name then (name, v) else a) = l := by
  rw [List.map_congr_left fun a ha => if_neg (h a ha), List.map_id']

/-- Among attributes of other names. -/
theorem perm_revalue_of_absent (h : ∀ a ∈ l, a.1 ≠ name) (h' : ∀ a ∈ l', a.1 ≠ name) :
    (revalue name value' (l ++ value.toList.map (name, ·) ++ l')).Perm
      (l ++ value'.toList.map (name, ·) ++ l') := by
  have hnone : ∀ l : List (String × String), (∀ a ∈ l, a.1 ≠ name) → l.any (·.1 == name) = false := by
    intro l hl
    rw [List.any_eq_false]
    intro a ha
    simpa using hl a ha
  cases value' with
  | none =>
    rw [revalue, List.filter_append, List.filter_append, filter_of_absent h, filter_of_absent h']
    cases value <;> simp
  | some v =>
    cases value with
    | none =>
      rw [revalue, if_neg (by simp [hnone l h, hnone l' h'])]
      simp only [Option.toList_none, Option.toList_some, List.map_nil, List.append_nil, List.map_cons,
        List.append_assoc]
      exact List.perm_append_comm.append_left l
    | some w =>
      rw [revalue, if_pos (by simp), List.map_append, List.map_append, map_of_absent h,
        map_of_absent h']
      simp

end Revalue

end LiveMarkup
