import LiveMarkup.Proofs.Rendering.Resolution
import LiveMarkup.Proofs.Rendering.Wiring
import LiveMarkup.Rendering.Realization
/-!
# Caches mirror values

Showing a value goes through the instances of the last time in order. Each invocation takes the instance
at its position before those nested in it take theirs, and whatever is there is used again if it is for
the same template. So in the end the cache has the same shape as the value (`Cache.Mirrors`), and the
blocks in it are the old ones exactly where an instance of the same template stood (`Cache.Reuses`).

What showing some values does to a level is `Level.Advances`. It is composed of what showing each of them
does (`Level.Advances.append`).
-/

namespace LiveMarkup

open Markup (Namespace)

/-! ### The shape of a value -/

mutual

/-- The templates of an invocation and of those nested in it directly, in the order in which they are
met. -/
def Value.layout : Value → List (Namespace × Template)
  | .invocation space template values => (space, template) :: layouts values
  | _ => []

/-- The templates of the invocations in some holes. -/
def Value.layouts : List Value → List (Namespace × Template)
  | [] => []
  | v :: rest => v.layout ++ layouts rest

end

mutual

/-- The invocations that are items of lists in an invocation and in those nested in it directly, in the
order in which they are met. -/
def Value.items : Value → List Value
  | .invocation _ _ values => itemsAll values
  | .list items => items.filter fun v => v.shape == .invocation
  | _ => []

/-- The invocations that are items of lists in some holes. -/
def Value.itemsAll : List Value → List Value
  | [] => []
  | v :: rest => v.items ++ itemsAll rest

end

namespace Value

theorem IsLeaf.layout {v : Value} (h : v.IsLeaf) : v.layout = [] := by
  rw [Value.layout]
  exact h.ne_invocation

theorem IsLeaf.items {v : Value} (h : v.IsLeaf) : v.items = [] := by
  rw [Value.items]
  · exact h.ne_invocation
  · exact h.ne_list

end Value

/-! ### The shape of a cache -/

/-- The template that an instance is for. -/
def Instance.use (i : Instance) : Namespace × Template :=
  (i.space, i.template)

/-- Whether an instance has a binding for each hole of its template. -/
def Instance.Whole (i : Instance) : Prop :=
  i.bindings.length = (i.template.compilation i.space).compiled.holes.length

/-- A cache has an instance for an invocation and for each that is nested in it directly, and a slot for
each item of a list, which mirrors the item in turn. -/
inductive Cache.Mirrors : Cache → Value → Prop where
  | mk {cache : Cache} {v : Value} (templates : cache.instances.map Instance.use = v.layout)
      (whole : ∀ i ∈ cache.instances, i.Whole) (slots : List.Forall₂ Mirrors cache.slots v.items) :
      Mirrors cache v

/-- The block of an instance is that of the one which stood in its place before, exactly if there was one
and it was for the same template. -/
def Instance.Reuses (old : Option Instance) (i : Instance) : Prop :=
  (∃ o, old = some o ∧ o.block = i.block) ↔ ∃ o, old = some o ∧ o.use = i.use

/-- The blocks in a cache are those of the cache before, exactly where instances of the same template
stood. A slot takes over from the slot of the same number. -/
inductive Cache.Reuses : Cache → Cache → Prop where
  | mk {old cache : Cache}
      (instances : ∀ (k : Nat) (i : Instance), cache.instances[k]? = some i →
        i.Reuses old.instances[k]?)
      (slots : ∀ (k : Nat) (slot : Cache), cache.slots[k]? = some slot →
        Reuses (old.slots[k]?.getD .empty) slot) :
      Reuses old cache

/-- An instance has all its bindings, which keep out of each other's way, and its block has been made. -/
structure Instance.Intact (d : Document) (i : Instance) : Prop where
  whole : i.Whole
  issued : d.Issued i.block
  wired : Binding.Wired d (i.template.compilation i.space).compiled.holes i.bindings

/-- All instances in a cache are intact. -/
inductive Cache.Intact (d : Document) : Cache → Prop where
  | mk {cache : Cache} (instances : ∀ i ∈ cache.instances, i.Intact d)
      (slots : ∀ slot ∈ cache.slots, Intact d slot) : Intact d cache

theorem Instance.Intact.grows {d d' : Document} {i : Instance} (h : i.Intact d) (hd : d.Grows d') :
    i.Intact d' :=
  ⟨h.whole, hd.issued h.issued, h.wired.grows hd⟩

theorem Cache.Intact.grows {d d' : Document} {cache : Cache} (h : cache.Intact d) (hd : d.Grows d') :
    cache.Intact d' := by
  induction h with
  | mk instances _ ih => exact .mk (fun i hi => (instances i hi).grows hd) ih

theorem Cache.intact_empty (d : Document) : Cache.empty.Intact d :=
  .mk (fun _ h => by cases h) (fun _ h => by cases h)

theorem Instance.isOf_iff {i : Instance} {space : Namespace} {template : Template} :
    i.isOf space template = true ↔ i.use = (space, template) := by
  rw [isOf, Bool.and_eq_true, beq_iff_eq, beq_iff_eq, use, Prod.mk.injEq]

/-! ### Levels -/

namespace Level

variable {base : Document} {level level' level'' : Level} {instances instances' : List Instance}
  {slots slots' : List Cache} {templates templates' : List (Namespace × Template)}
  {items items' : List Value} {space : Namespace} {template : Template}

/-- What is left of a cache has been there since `base`. -/
structure Stems (base : Document) (level : Level) : Prop where
  grows : base.Grows level.document
  instances : ∀ i ∈ level.oldInstances, i.Intact base
  slots : ∀ slot ∈ level.oldSlots, slot.Intact base

/-- Only the document of a level has changed, and nothing in it has been given up. -/
structure Gains (level level' : Level) : Prop where
  document : level.document.Grows level'.document
  oldInstances : level'.oldInstances = level.oldInstances
  oldSlots : level'.oldSlots = level.oldSlots
  newSlots : level'.newSlots = level.newSlots

/-- Some values have been shown on a level: the instances and slots for them take over from those of the
last time in order, and have the templates and items of the values. -/
structure Advances (level level' : Level) (instances : List Instance) (slots : List Cache)
    (templates : List (Namespace × Template)) (items : List Value) : Prop where
  grows : level.document.Grows level'.document
  templates : instances.map Instance.use = templates
  intact : ∀ i ∈ instances, i.Intact level'.document
  reuses : ∀ (k : Nat) (i : Instance), instances[k]? = some i → i.Reuses level.oldInstances[k]?
  oldInstances : level'.oldInstances = level.oldInstances.drop instances.length
  oldSlots : level'.oldSlots = level.oldSlots.drop slots.length
  newSlots : level'.newSlots = slots.reverse ++ level.newSlots
  mirrors : List.Forall₂ Cache.Mirrors slots items
  intactSlots : ∀ slot ∈ slots, slot.Intact level'.document
  reusesSlots : ∀ (k : Nat) (slot : Cache), slots[k]? = some slot →
    (level.oldSlots[k]?.getD .empty).Reuses slot

theorem Gains.refl (level : Level) : level.Gains level :=
  ⟨.refl _, rfl, rfl, rfl⟩

theorem Gains.trans (h : level.Gains level') (h' : level'.Gains level'') : level.Gains level'' :=
  ⟨h.document.trans h'.document, h'.oldInstances.trans h.oldInstances,
    h'.oldSlots.trans h.oldSlots, h'.newSlots.trans h.newSlots⟩

namespace Advances

theorem nil (level : Level) : level.Advances level [] [] [] [] where
  grows := .refl _
  templates := rfl
  intact _ h := by cases h
  reuses _ _ h := by cases h
  oldInstances := rfl
  oldSlots := rfl
  newSlots := rfl
  mirrors := .nil
  intactSlots _ h := by cases h
  reusesSlots _ _ h := by cases h

theorem stems (h : level.Advances level' instances slots templates items) (hs : level.Stems base) :
    level'.Stems base where
  grows := hs.grows.trans h.grows
  instances i hi := hs.instances i (List.mem_of_mem_drop (h.oldInstances ▸ hi))
  slots slot hslot := hs.slots slot (List.mem_of_mem_drop (h.oldSlots ▸ hslot))

/-- What happens to the document later on does not matter. -/
theorem gains (h : level.Advances level' instances slots templates items) (hg : level'.Gains level'') :
    level.Advances level'' instances slots templates items where
  grows := h.grows.trans hg.document
  templates := h.templates
  intact i hi := (h.intact i hi).grows hg.document
  reuses := h.reuses
  oldInstances := hg.oldInstances.trans h.oldInstances
  oldSlots := hg.oldSlots.trans h.oldSlots
  newSlots := hg.newSlots.trans h.newSlots
  mirrors := h.mirrors
  intactSlots slot hs := (h.intactSlots slot hs).grows hg.document
  reusesSlots := h.reusesSlots

/-- Some values are shown, then some others. -/
theorem append (h : level.Advances level' instances slots templates items)
    (h' : level'.Advances level'' instances' slots' templates' items') :
    level.Advances level'' (instances ++ instances') (slots ++ slots') (templates ++ templates')
      (items ++ items') where
  grows := h.grows.trans h'.grows
  templates := by rw [List.map_append, h.templates, h'.templates]
  intact i hi := by
    rcases List.mem_append.1 hi with hi | hi
    · exact (h.intact i hi).grows h'.grows
    · exact h'.intact i hi
  reuses k i hi := by
    by_cases hk : k < instances.length
    · exact h.reuses k i ((List.getElem?_append_left hk).symm.trans hi)
    · rw [List.getElem?_append_right (Nat.le_of_not_lt hk)] at hi
      have hreuses := h'.reuses _ i hi
      rwa [h.oldInstances, List.getElem?_drop, Nat.add_sub_cancel' (Nat.le_of_not_lt hk)] at hreuses
  oldInstances := by
    rw [h'.oldInstances, h.oldInstances, List.drop_drop, List.length_append]
  oldSlots := by rw [h'.oldSlots, h.oldSlots, List.drop_drop, List.length_append]
  newSlots := by rw [h'.newSlots, h.newSlots, List.reverse_append, List.append_assoc]
  mirrors := List.rel_append h.mirrors h'.mirrors
  intactSlots slot hs := by
    rcases List.mem_append.1 hs with hs | hs
    · exact (h.intactSlots slot hs).grows h'.grows
    · exact h'.intactSlots slot hs
  reusesSlots k slot hs := by
    by_cases hk : k < slots.length
    · exact h.reusesSlots k slot ((List.getElem?_append_left hk).symm.trans hs)
    · rw [List.getElem?_append_right (Nat.le_of_not_lt hk)] at hs
      have hreuses := h'.reusesSlots _ slot hs
      rwa [h.oldSlots, List.getElem?_drop, Nat.add_sub_cancel' (Nat.le_of_not_lt hk)] at hreuses

end Advances

/-! ### Showing a use -/

theorem gains_release (level : Level) (custody : Custody) (underWay : List NodeId) :
    level.Gains (level.release custody underWay) :=
  ⟨(Document.evolves_release ..).grows, rfl, rfl, rfl⟩

theorem gains_fill (level : Level) (custody : Custody) (bindings : List Binding)
    (values : List Value) : level.Gains (level.fill custody bindings values).2 := by
  fun_induction fill level custody bindings values with
  | case1 level custody b bindings value values updated level' others ih =>
    have hupdate : level.Gains { level with document := updated.2 } :=
      ⟨(Document.evolves_updateBinding (.refl _) (.refl _) level.document value).grows, rfl, rfl, rfl⟩
    exact (hupdate.trans (gains_release ..)).trans ih
  | case2 => exact .refl _

theorem length_fill (level : Level) (custody : Custody) (bindings : List Binding)
    (values : List Value) : (level.fill custody bindings values).1.length = bindings.length := by
  fun_induction fill level custody bindings values with
  | case1 level custody b bindings value values updated level' others ih =>
    exact congrArg (· + 1) ih
  | case2 => rfl

/-- A new instance is intact. -/
theorem intact_create (d : Document) (space : Namespace) (template : Template) :
    (Instance.create d space template (template.compilation space).compiled).1.Intact
      (Instance.create d space template (template.compilation space).compiled).2 :=
  ⟨Document.length_bindings_create d space template (template.coherent_compilation space),
    (Document.issued_createInstance ..).2,
    (Document.wired_createInstance d space template (template.coherent_compilation space)).1⟩

/-- The next instance has been taken from a level. If there was one before, it is that. -/
structure Takes (level : Level) (i : Instance) (level' : Level) : Prop where
  grows : level.document.Grows level'.document
  intact : i.Intact level'.document
  same : ∀ o, level.oldInstances[0]? = some o → o = i
  oldInstances : level'.oldInstances = level.oldInstances.drop 1
  oldSlots : level'.oldSlots = level.oldSlots
  newSlots : level'.newSlots = level.newSlots

theorem takes_take (hs : level.Stems base) (space : Namespace) (template : Template) :
    level.Takes (level.take space template (template.compilation space).compiled).1
      (level.take space template (template.compilation space).compiled).2 := by
  unfold take
  split
  · rename_i i rest hold
    refine ⟨.refl _, ?_, fun o ho => ?_, ?_, rfl, rfl⟩
    · exact (hs.instances i (hold ▸ List.mem_cons_self ..)).grows hs.grows
    · rw [hold] at ho
      exact (Option.some.inj ho).symm
    · rw [hold]
      rfl
  · rename_i hold
    refine ⟨(Document.evolves_createInstance level.document space template _).grows, intact_create ..,
      fun o ho => ?_, ?_, rfl, rfl⟩
    · rw [hold] at ho
      cases ho
    · rw [hold]
      rfl

/-- An instance is kept if it is for the right template. Otherwise the one made in its place has a block
that has not been there before. -/
theorem fit_spec {old : Option Instance} {i : Instance} (hi : i.Intact level.document)
    (hold : ∀ o, old = some o → o = i) (custody : Custody) (space : Namespace)
    (template : Template) :
    let fitted := level.fit custody i space template (template.compilation space).compiled
    level.Gains fitted.2 ∧ fitted.1.use = (space, template) ∧ fitted.1.Intact fitted.2.document ∧
      fitted.1.Reuses old := by
  dsimp only
  unfold fit
  split
  · rename_i hof
    refine ⟨.refl level, Instance.isOf_iff.1 hof, hi, ?_⟩
    refine ⟨fun ⟨o, ho, _⟩ => ⟨o, ho, by rw [hold o ho]⟩, fun ⟨o, ho, _⟩ => ⟨o, ho, by rw [hold o ho]⟩⟩
  · rename_i hof
    have hgrows := (Document.evolves_createInstance level.document space template
      (template.compilation space).compiled).grows
    have hissued := Document.issued_createInstance level.document space template
      (template.compilation space).compiled
    refine ⟨⟨hgrows.trans (Document.evolves_release ..).grows, rfl, rfl, rfl⟩, rfl,
      (intact_create ..).grows (Document.evolves_release ..).grows, fun ⟨o, ho, hblock⟩ => ?_,
      fun ⟨o, ho, huse⟩ => ?_⟩
    · rw [hold o ho] at hblock
      exact absurd (hblock ▸ hi.issued) hissued.1
    · rw [hold o ho] at huse
      exact absurd (Instance.isOf_iff.2 huse) hof

/-- An instance is taken, then some values are shown. -/
theorem Advances.cons {i j : Instance} (ht : level.Takes i level')
    (h : level'.Advances level'' instances slots templates items) (hj : j.Intact level''.document)
    (hreuses : j.Reuses level.oldInstances[0]?) :
    level.Advances level'' (j :: instances) slots (j.use :: templates) items where
  grows := ht.grows.trans h.grows
  templates := by rw [List.map_cons, h.templates]
  intact := List.forall_mem_cons.2 ⟨hj, h.intact⟩
  reuses k o ho := by
    cases k with
    | zero =>
      obtain rfl : j = o := Option.some.inj ho
      exact hreuses
    | succ k =>
      have hnext := h.reuses k o ho
      rwa [ht.oldInstances, List.getElem?_drop, Nat.add_comm] at hnext
  oldInstances := by
    rw [h.oldInstances, ht.oldInstances, List.drop_drop, List.length_cons, Nat.add_comm]
  oldSlots := by rw [h.oldSlots, ht.oldSlots]
  newSlots := by rw [h.newSlots, ht.newSlots]
  mirrors := h.mirrors
  intactSlots := h.intactSlots
  reusesSlots k slot hs := by
    have hnext := h.reusesSlots k slot hs
    rwa [ht.oldSlots] at hnext

/-- A use takes the instance at the next position, and then what is nested in its holes takes those that
follow. -/
theorem advances_use {holes : Custody → Level → Realized (List Value)} (hs : level.Stems base)
    (hholes : ∀ custody (level : Level), level.Stems base → ∃ slots,
      level.Advances (holes custody level).level (holes custody level).instances slots templates items)
    (custody : Custody) (space : Namespace) (template : Template) :
    let used := level.use custody space template (template.compilation space).compiled holes
    ∃ slots, level.Advances used.level used.instances slots ((space, template) :: templates) items := by
  dsimp only
  unfold use
  dsimp only
  have ht := takes_take hs space template
  generalize level.take space template (template.compilation space).compiled = taken at ht ⊢
  have hstems : taken.2.Stems base := by
    refine ⟨hs.grows.trans ht.grows, fun i hi => hs.instances i ?_, fun slot hslot => hs.slots slot ?_⟩
    · exact List.mem_of_mem_drop (ht.oldInstances ▸ hi)
    · exact ht.oldSlots ▸ hslot
  obtain ⟨slots, hinner⟩ := hholes (custody.holding taken.1.held) taken.2 hstems
  generalize holes (custody.holding taken.1.held) taken.2 = inner at hinner ⊢
  obtain ⟨hfits, huse, hintact, hreuses⟩ := fit_spec (ht.intact.grows hinner.grows) ht.same
    ((custody.holding (inner.instances.flatMap Instance.held))) space template
  generalize inner.level.fit _ taken.1 space template _ = fitted at hfits huse hintact hreuses ⊢
  have hfill := gains_fill fitted.2
    ((custody.holding (inner.instances.flatMap Instance.held)).holding fitted.1.block.held)
    fitted.1.bindings inner.result
  have hlength := length_fill fitted.2
    ((custody.holding (inner.instances.flatMap Instance.held)).holding fitted.1.block.held)
    fitted.1.bindings inner.result
  refine ⟨slots, huse ▸ Advances.cons ht (hinner.gains (hfits.trans hfill)) ⟨?_, ?_, ?_⟩ hreuses⟩
  · exact hlength.trans hintact.whole
  · exact hfill.document.issued hintact.issued
  · exact (hintact.wired.of_sites (sites_fill ..)).grows hfill.document

/-- What remains of a level when all has been shown on it. -/
theorem close_spec {old : Cache} {d : Document} {v : Value}
    (h : Advances ⟨old.instances, old.slots, [], d⟩ level instances slots v.layout v.items)
    (custody : Custody) (root : Option Block) :
    let closed := level.close custody instances root
    d.Grows closed.2 ∧ closed.1.Intact closed.2 ∧ closed.1.Mirrors v ∧ old.Reuses closed.1 := by
  have hslots : level.newSlots.reverse = slots := by
    rw [h.newSlots, List.append_nil, List.reverse_reverse]
  have hrelease := (Document.evolves_release level.document
    (custody.holding (Cache.held ⟨instances, slots, root⟩))).grows
  dsimp only [close]
  rw [hslots]
  exact ⟨h.grows.trans hrelease,
    .mk (fun i hi => (h.intact i hi).grows hrelease)
      (fun slot hs => (h.intactSlots slot hs).grows hrelease),
    .mk h.templates (fun i hi => (h.intact i hi).whole) h.mirrors, .mk h.reuses h.reusesSlots⟩

end Level

/-! ### Showing a plan -/

namespace Level

variable {c : Catalogue} {base : Document} {level : Level}

/-- An item of a list takes the next slot. -/
theorem advances_slot {p : Plan} {v : Value} (hs : level.Stems base)
    (hp : ∀ custody (level : Level), level.Stems base → ∃ slots,
      level.Advances (p.realize custody level).level (p.realize custody level).instances slots
        v.layout v.items)
    (custody outside : Custody) :
    let slot := level.takeSlot
    let inner := p.realize outside ⟨slot.1.instances, slot.1.slots, [], slot.2.document⟩
    let closed := inner.level.close custody inner.instances slot.1.root
    level.Advances { slot.2 with newSlots := closed.1 :: slot.2.newSlots, document := closed.2 } []
      [closed.1] [] [v] := by
  have hslot : level.takeSlot.2.document = level.document ∧
      level.takeSlot.2.oldInstances = level.oldInstances ∧
      level.takeSlot.2.oldSlots = level.oldSlots.drop 1 ∧
      level.takeSlot.2.newSlots = level.newSlots ∧
      level.takeSlot.1 = level.oldSlots[0]?.getD .empty ∧ level.takeSlot.1.Intact base := by
    unfold takeSlot
    split
    · rename_i slot rest hold
      exact ⟨rfl, rfl, by rw [hold]; rfl, rfl, by rw [hold]; rfl,
        hs.slots slot (hold ▸ List.mem_cons_self ..)⟩
    · rename_i hold
      exact ⟨rfl, rfl, by rw [hold]; rfl, rfl, by rw [hold]; rfl, Cache.intact_empty base⟩
  dsimp only
  generalize level.takeSlot = slot at hslot ⊢
  obtain ⟨hdocument, hinstances, hslots, hnew, hat, hintact⟩ := hslot
  have hstems : Stems base ⟨slot.1.instances, slot.1.slots, [], slot.2.document⟩ := by
    cases hintact with
    | mk instances slots => exact ⟨hdocument ▸ hs.grows, instances, slots⟩
  obtain ⟨slots, hinner⟩ := hp outside _ hstems
  obtain ⟨hgrows, hclosed, hmirrors, hreuses⟩ := close_spec hinner custody slot.1.root
  exact {
    grows := hdocument ▸ hgrows
    templates := rfl
    intact := fun _ h => by cases h
    reuses := fun _ _ h => by cases h
    oldInstances := hinstances
    oldSlots := hslots
    newSlots := by rw [hnew]; rfl
    mirrors := .cons hmirrors .nil
    intactSlots := fun _ h => List.mem_singleton.1 h ▸ hclosed
    reusesSlots := fun k s h => by
      cases k with
      | zero =>
        obtain rfl := Option.some.inj h
        rw [← hat]
        exact hreuses
      | succ k => cases h }

/-- Showing a value with the plan for it. -/
theorem advances_realize (hc : c.Sound) :
    (∀ {v p}, c.Resolves v p → ∀ custody (level : Level), level.Stems base → ∃ slots,
      level.Advances (p.realize custody level).level (p.realize custody level).instances slots
        v.layout v.items) ∧
      (∀ {vs ps}, c.ResolvesAll vs ps → ∀ custody (level : Level), level.Stems base → ∃ slots,
        level.Advances (realizeAll custody level ps).level (realizeAll custody level ps).instances
          slots (Value.layouts vs) (Value.itemsAll vs)) ∧
      ∀ {vs ps}, c.ResolvesItems vs ps → ∀ custody (level : Level), level.Stems base → ∃ slots,
        level.Advances (realizeItems custody level ps).level [] slots []
          (vs.filter fun v => v.shape == .invocation) := by
  refine Catalogue.resolves_induct ?_ ?_ ?_ ?_ ?_ ?_ ?_ ?_
  · intro v hv custody level _
    rw [hv.layout, hv.items]
    exact ⟨[], .nil level⟩
  · intro space template compiled values plans hk _ ih custody level hs
    obtain ⟨-, rfl⟩ := hc space template compiled hk
    exact advances_use hs ih custody space template
  · intro values plans ih custody level hs
    exact ih custody level hs
  · exact fun _ level _ => ⟨[], .nil level⟩
  · intro v vs p ps ih ih' custody level hs
    obtain ⟨slots, h⟩ := ih custody level hs
    obtain ⟨slots', h'⟩ := ih' (custody.holding
      ((p.realize custody level).instances.flatMap Instance.held)) _ (h.stems hs)
    exact ⟨slots ++ slots', h.append h'⟩
  · exact fun _ level _ => ⟨[], .nil level⟩
  · intro v vs ps hv ih custody level hs
    obtain ⟨slots, h⟩ := ih custody level hs
    rw [List.filter_cons_of_neg (by simpa [Value.shape_eq_invocation] using hv)]
    exact ⟨slots, h⟩
  · intro space template compiled values plans vs ps ih ih' custody level hs
    have h := advances_slot hs ih (custody.holding level.takeSlot.2.held)
      (custody.holding level.takeSlot.2.held)
    obtain ⟨slots, h'⟩ := ih' custody _ (h.stems hs)
    exact ⟨_ :: slots, h.append h'⟩

end Level

/-- Showing a use with a cache leaves a cache that mirrors the invocation, and that has blocks of the cache
before exactly where instances of the same template stood. -/
theorem Cache.realize_spec {c : Catalogue} (hc : c.Sound) {cache : Cache} {d : Document} {v : Value}
    {use : Use} (hcache : cache.Intact d)
    (hv : c.Resolves v (.use use.space use.template use.compiled use.holes)) (custody : Custody) :
    let shown := cache.realize custody d use
    d.Grows shown.2.2 ∧ shown.2.1.Intact shown.2.2 ∧ shown.2.1.Mirrors v ∧
      cache.Reuses shown.2.1 := by
  cases hcache with
  | mk instances slots =>
    obtain ⟨_, h⟩ := (Level.advances_realize hc).1 hv (custody.holding (cache.root.elim [] Block.held))
      ⟨cache.instances, cache.slots, [], d⟩ ⟨.refl d, instances, slots⟩
    exact Level.close_spec h _ cache.root

end LiveMarkup
