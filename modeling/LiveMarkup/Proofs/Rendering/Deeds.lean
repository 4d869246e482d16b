import LiveMarkup.Proofs.Rendering.Chronicle
import LiveMarkup.Proofs.Rendering.Resolution
/-!
# The deeds of showing a value

To show a value is to do one thing after another to the document: an instance is made when there is none to be
used again, bindings are brought up to date, and what is not held is let go of. These deeds are listed here for
each step of showing a plan. The list is complete in that doing all of this leads to the document that showing
the value leads to, and each deed in it is fair, whatever has been done before (`Cache.follows_realize`).

This is so because the instances on a level have all been made before (`Level.Follows`), which each step keeps.
-/

namespace LiveMarkup

open Markup (Namespace)

/-! ### What is done -/

namespace Level

/-- What is done to take the instance at the next position. -/
def takeDeeds (level : Level) (space : Namespace) (template : Template) (compiled : Compiled) : List Deed :=
  match level.oldInstances with
  | _ :: _ => []
  | [] => [.make space template compiled]

/-- What is done to have an instance of a template in the place of another one. -/
def fitDeeds (level : Level) (custody : Custody) (i : Instance) (space : Namespace) (template : Template)
    (compiled : Compiled) : List Deed :=
  if i.isOf space template then []
  else
    let made := Instance.create level.document space template compiled
    [.make space template compiled, .release (custody.holding (made.1.held ++ level.held))]

/-- What is done to bring bindings up to date. -/
def fillDeeds (level : Level) (custody : Custody) : List Binding → List Value → List Deed
  | b :: bindings, value :: values =>
    let updated := b.update level.document value
    let underWay := updated.1.held ++ bindings.flatMap Binding.held
    [.update b value, .release (custody.holding (underWay ++ level.held))]
      ++ fillDeeds ({ level with document := updated.2 }.release custody underWay)
        (custody.holding updated.1.held) bindings values
  | _, _ => []

/-- What is done to show a use of a template; `inside` is what is done for its holes. -/
def useDeeds (level : Level) (custody : Custody) (space : Namespace) (template : Template)
    (compiled : Compiled) (holes : Custody → Level → Realized (List Value))
    (inside : Custody → Level → List Deed) : List Deed :=
  let taken := level.take space template compiled
  let inner := holes (custody.holding taken.1.held) taken.2
  let outside := custody.holding (inner.instances.flatMap Instance.held)
  let fitted := inner.level.fit outside taken.1 space template compiled
  level.takeDeeds space template compiled ++ inside (custody.holding taken.1.held) taken.2
    ++ inner.level.fitDeeds outside taken.1 space template compiled
    ++ fitted.2.fillDeeds (outside.holding fitted.1.block.held) fitted.1.bindings inner.result

/-- What is done when all has been shown on a level. -/
def closeDeeds (level : Level) (custody : Custody) (instances : List Instance) (root : Option Block) :
    List Deed :=
  [.release (custody.holding (Cache.held ⟨instances, level.newSlots.reverse, root⟩))]

end Level

mutual

/-- What is done to show a plan. -/
def Plan.deeds (custody : Custody) (level : Level) : Plan → List Deed
  | .leaf _ => []
  | .use space template compiled holes =>
    level.useDeeds custody space template compiled (fun custody level => realizeAll custody level holes)
      fun custody level => deedsOfAll custody level holes
  | .list items => deedsOfItems custody level items

/-- What is done to show the plans of some holes. -/
def deedsOfAll (custody : Custody) (level : Level) : List Plan → List Deed
  | [] => []
  | plan :: rest =>
    let first := plan.realize custody level
    plan.deeds custody level
      ++ deedsOfAll (custody.holding (first.instances.flatMap Instance.held)) first.level rest

/-- What is done to show the items of a list. -/
def deedsOfItems (custody : Custody) (level : Level) : List Plan → List Deed
  | [] => []
  | .leaf _ :: rest => deedsOfItems custody level rest
  | plan :: rest =>
    let slot := level.takeSlot
    let outside := custody.holding slot.2.held
    let start : Level := ⟨slot.1.instances, slot.1.slots, [], slot.2.document⟩
    let inner := plan.realize outside start
    let closed := inner.level.close outside inner.instances slot.1.root
    plan.deeds outside start ++ inner.level.closeDeeds outside inner.instances slot.1.root
      ++ deedsOfItems custody
        { slot.2 with newSlots := closed.1 :: slot.2.newSlots, document := closed.2 } rest

end

/-- What is done to show a use of a template with the help of a cache. -/
def Cache.deeds (cache : Cache) (custody : Custody) (d : Document) (use : Use) : List Deed :=
  let custody := custody.holding (cache.root.elim [] Block.held)
  let start : Level := ⟨cache.instances, cache.slots, [], d⟩
  let holes := fun custody level => realizeAll custody level use.holes
  let done := start.use custody use.space use.template use.compiled holes
  start.useDeeds custody use.space use.template use.compiled holes
      (fun custody level => deedsOfAll custody level use.holes)
    ++ done.level.closeDeeds custody done.instances cache.root

/-! ### Levels -/

variable {log more : List Deed} {deed : Deed} {i : Instance} {cache : Cache} {m : Making}
  {space : Namespace} {template : Template}

/-- An instance is one of those that have been made. -/
def Instance.MadeIn (log : List Deed) (i : Instance) : Prop :=
  ∃ m ∈ makings log, m.Makes i

/-- All instances in a cache have been made. -/
inductive Cache.MadeIn (log : List Deed) : Cache → Prop where
  | mk {cache : Cache} (instances : ∀ i ∈ cache.instances, i.MadeIn log)
      (slots : ∀ slot ∈ cache.slots, MadeIn log slot) : MadeIn log cache

theorem Instance.MadeIn.append (h : i.MadeIn log) (more : List Deed) : i.MadeIn (log ++ more) := by
  obtain ⟨m, hm, hmakes⟩ := h
  exact ⟨m, makings_subset_append log more hm, hmakes⟩

theorem Cache.MadeIn.append (h : cache.MadeIn log) (more : List Deed) : cache.MadeIn (log ++ more) := by
  induction h with
  | mk instances _ ih => exact .mk (fun i hi => (instances i hi).append more) ih

theorem Cache.madeIn_empty (log : List Deed) : Cache.empty.MadeIn log :=
  .mk (fun _ h => (List.not_mem_nil h).elim) fun _ h => (List.not_mem_nil h).elim

theorem Instance.madeIn_create {d : Document} (h : outcome log = d) (space : Namespace) (template : Template)
    (compiled : Compiled) :
    (create d space template compiled).1.MadeIn (log ++ [.make space template compiled]) := by
  refine ⟨⟨outcome log, space, template, compiled⟩, ?_, ?_⟩
  · rw [makings_concat]
    exact List.mem_append_right _ (List.mem_singleton_self _)
  · rw [h]
    exact ⟨rfl, rfl, rfl, rfl⟩

namespace Level

variable {level : Level} {custody : Custody}

/-- The document of a level is what some deeds have led to, which are a chronicle, and all instances on the
level have been made by them. -/
structure Follows (level : Level) (log : List Deed) : Prop where
  chronicle : Chronicle log
  document : outcome log = level.document
  oldInstances : ∀ i ∈ level.oldInstances, i.MadeIn log
  oldSlots : ∀ slot ∈ level.oldSlots, slot.MadeIn log
  newSlots : ∀ slot ∈ level.newSlots, slot.MadeIn log

/-- One more deed is done. -/
theorem Follows.next (h : level.Follows log) (hdeed : deed.Fair log) :
    Follows { level with document := deed.apply level.document } (log ++ [deed]) where
  chronicle := h.chronicle.concat hdeed
  document := by rw [outcome_concat, h.document]
  oldInstances i hi := (h.oldInstances i hi).append _
  oldSlots slot hslot := (h.oldSlots slot hslot).append _
  newSlots slot hslot := (h.newSlots slot hslot).append _

theorem Follows.release (h : level.Follows log) (custody : Custody) (underWay : List NodeId) :
    (level.release custody underWay).Follows
      (log ++ [.release (custody.holding (underWay ++ level.held))]) := by
  have hdeed : (Deed.release (custody.holding (underWay ++ level.held))).Fair log := trivial
  exact h.next hdeed

/-- Another instance is made. -/
theorem Follows.make (h : level.Follows log) (space : Namespace) (template : Template) :
    let compiled := (template.compilation space).compiled
    let made := Instance.create level.document space template compiled
    Follows { level with document := made.2 } (log ++ [.make space template compiled]) ∧
      made.1.MadeIn (log ++ [.make space template compiled]) := by
  have hdeed : (Deed.make space template (template.compilation space).compiled).Fair log := rfl
  exact ⟨h.next hdeed, Instance.madeIn_create h.document ..⟩

/-- The instance at the next position has been made before or is made now. -/
theorem Follows.take (h : level.Follows log) (space : Namespace) (template : Template) :
    let compiled := (template.compilation space).compiled
    (level.take space template compiled).2.Follows (log ++ level.takeDeeds space template compiled) ∧
      (level.take space template compiled).1.MadeIn (log ++ level.takeDeeds space template compiled) := by
  have hmake := h.make space template
  dsimp only at hmake ⊢
  unfold Level.take takeDeeds
  cases hold : level.oldInstances with
  | nil =>
    rw [hold] at hmake
    exact hmake
  | cons i rest =>
    dsimp only
    rw [List.append_nil]
    have hinstances := h.oldInstances
    rw [hold] at hinstances
    obtain ⟨hi, hrest⟩ := List.forall_mem_cons.1 hinstances
    exact ⟨⟨h.chronicle, h.document, hrest, h.oldSlots, h.newSlots⟩, hi⟩

theorem Follows.fit (h : level.Follows log) (hi : i.MadeIn log) (custody : Custody) (space : Namespace)
    (template : Template) :
    let compiled := (template.compilation space).compiled
    (level.fit custody i space template compiled).2.Follows
        (log ++ level.fitDeeds custody i space template compiled) ∧
      (level.fit custody i space template compiled).1.MadeIn
        (log ++ level.fitDeeds custody i space template compiled) := by
  dsimp only
  unfold Level.fit fitDeeds
  split
  · rw [List.append_nil]
    exact ⟨h, hi⟩
  · dsimp only
    obtain ⟨hlevel, hmade⟩ := h.make space template
    rw [List.append_cons]
    exact ⟨hlevel.release custody _, hmade.append _⟩

/-- Bringing bindings up to date is fair as long as they are those of an instance that has been made. -/
theorem Follows.fill {bindings : List Binding} (h : level.Follows log) (hm : m ∈ makings log)
    (hb : ∀ b ∈ bindings, b.site ∈ m.result.bindings.map Binding.site) (custody : Custody)
    (values : List Value) :
    (level.fill custody bindings values).2.Follows (log ++ level.fillDeeds custody bindings values) := by
  induction bindings generalizing level log custody values with
  | nil =>
    rw [Level.fill, fillDeeds, List.append_nil]
    · exact h
    · simp
    · simp
  | cons b rest ih =>
    cases values with
    | nil =>
      rw [Level.fill, fillDeeds, List.append_nil]
      · exact h
      · simp
      · simp
    | cons value values =>
      obtain ⟨hfirst, hrest⟩ := List.forall_mem_cons.1 hb
      have hdeed : (Deed.update b value).Fair log := ⟨m, hm, hfirst⟩
      have hupdate := h.next hdeed
      have hrelease := hupdate.release custody
        ((b.update level.document value).1.held ++ rest.flatMap Binding.held)
      rw [Level.fill, fillDeeds]
      dsimp only
      rw [List.cons_append, List.append_cons, List.singleton_append, List.append_cons]
      exact ih hrelease (makings_subset_append _ _ (makings_subset_append _ _ hm)) hrest _ values

end Level

/-- Something has been shown: its instances are some that have been made. -/
structure Realized.Follows {α : Type} (realized : Realized α) (log : List Deed) : Prop where
  level : realized.level.Follows log
  instances : ∀ i ∈ realized.instances, i.MadeIn log

namespace Level

variable {level : Level}

theorem Follows.use {holes : Custody → Level → Realized (List Value)} {inside : Custody → Level → List Deed}
    (h : level.Follows log)
    (hholes : ∀ custody (level : Level) log, level.Follows log →
      (holes custody level).Follows (log ++ inside custody level))
    (custody : Custody) (space : Namespace) (template : Template) :
    let compiled := (template.compilation space).compiled
    (level.use custody space template compiled holes).Follows
      (log ++ level.useDeeds custody space template compiled holes inside) := by
  dsimp only
  unfold Level.use useDeeds
  dsimp only
  obtain ⟨htake, htaken⟩ := h.take space template
  generalize level.take space template (template.compilation space).compiled = taken at htake htaken ⊢
  have hinner := hholes (custody.holding taken.1.held) taken.2 _ htake
  generalize holes (custody.holding taken.1.held) taken.2 = inner at hinner ⊢
  obtain ⟨hfit, hfitted⟩ := hinner.level.fit (htaken.append _)
    (custody.holding (inner.instances.flatMap Instance.held)) space template
  generalize inner.level.fit (custody.holding (inner.instances.flatMap Instance.held)) taken.1 space template
    (template.compilation space).compiled = fitted at hfit hfitted ⊢
  obtain ⟨m, hm, hmakes⟩ := hfitted
  have hfill := hfit.fill hm (fun b hb => hmakes.sites ▸ List.mem_map_of_mem hb)
    ((custody.holding (inner.instances.flatMap Instance.held)).holding fitted.1.block.held) inner.result
  simp only [← List.append_assoc] at hfill ⊢
  refine ⟨hfill, List.forall_mem_cons.2 ⟨⟨m, makings_subset_append _ _ hm, ?_⟩, fun i hi => ?_⟩⟩
  · exact ⟨hmakes.space, hmakes.template, hmakes.block, (sites_fill ..).trans hmakes.sites⟩
  · exact ((hinner.instances i hi).append _).append _

theorem Follows.close {instances : List Instance} (h : level.Follows log)
    (hinstances : ∀ i ∈ instances, i.MadeIn log) (custody : Custody) (root : Option Block) :
    Chronicle (log ++ level.closeDeeds custody instances root) ∧
      outcome (log ++ level.closeDeeds custody instances root) = (level.close custody instances root).2 ∧
      (level.close custody instances root).1.MadeIn (log ++ level.closeDeeds custody instances root) := by
  refine ⟨h.chronicle.concat trivial, ?_, ?_⟩
  · rw [closeDeeds, outcome_concat, h.document]
    rfl
  · exact .mk (fun i hi => (hinstances i hi).append _) fun slot hslot =>
      (h.newSlots slot (List.mem_reverse.1 hslot)).append _

/-- An item of a list is shown in a slot of its own. -/
theorem Follows.slot {p : Plan} (h : level.Follows log)
    (hp : ∀ custody (level : Level) log, level.Follows log →
      (p.realize custody level).Follows (log ++ p.deeds custody level))
    (outside : Custody) :
    let slot := level.takeSlot
    let start : Level := ⟨slot.1.instances, slot.1.slots, [], slot.2.document⟩
    let inner := p.realize outside start
    let closed := inner.level.close outside inner.instances slot.1.root
    Follows { slot.2 with newSlots := closed.1 :: slot.2.newSlots, document := closed.2 }
      (log ++ p.deeds outside start ++ inner.level.closeDeeds outside inner.instances slot.1.root) := by
  have hslot : level.takeSlot.2.Follows log ∧ level.takeSlot.1.MadeIn log := by
    unfold takeSlot
    split
    · rename_i slot rest hold
      have hslots := h.oldSlots
      rw [hold] at hslots
      obtain ⟨hslot, hrest⟩ := List.forall_mem_cons.1 hslots
      exact ⟨⟨h.chronicle, h.document, h.oldInstances, hrest, h.newSlots⟩, hslot⟩
    · exact ⟨h, Cache.madeIn_empty log⟩
  dsimp only
  generalize level.takeSlot = slot at hslot ⊢
  obtain ⟨hlevel, hmade⟩ := hslot
  have hstart : Follows ⟨slot.1.instances, slot.1.slots, [], slot.2.document⟩ log := by
    cases hmade with
    | mk instances slots =>
      exact ⟨hlevel.chronicle, hlevel.document, instances, slots, fun _ h => (List.not_mem_nil h).elim⟩
  have hinner := hp outside _ log hstart
  obtain ⟨hchronicle, hdocument, hclosed⟩ := hinner.level.close hinner.instances outside slot.1.root
  exact {
    chronicle := hchronicle
    document := hdocument
    oldInstances := fun i hi => ((hlevel.oldInstances i hi).append _).append _
    oldSlots := fun s hs => ((hlevel.oldSlots s hs).append _).append _
    newSlots := List.forall_mem_cons.2
      ⟨hclosed, fun s hs => ((hlevel.newSlots s hs).append _).append _⟩ }

/-- Showing a value with the plan for it. -/
theorem follows_realize {c : Catalogue} (hc : c.Sound) :
    (∀ {v p}, c.Resolves v p → ∀ custody (level : Level) log, level.Follows log →
      (p.realize custody level).Follows (log ++ p.deeds custody level)) ∧
      (∀ {vs ps}, c.ResolvesAll vs ps → ∀ custody (level : Level) log, level.Follows log →
        (realizeAll custody level ps).Follows (log ++ deedsOfAll custody level ps)) ∧
      ∀ {vs ps}, c.ResolvesItems vs ps → ∀ custody (level : Level) log, level.Follows log →
        (realizeItems custody level ps).level.Follows (log ++ deedsOfItems custody level ps) := by
  have hnone : ∀ {α : Type} (result : α) {level : Level} {log : List Deed}, level.Follows log →
      Realized.Follows ⟨result, [], level⟩ (log ++ []) := fun _ _ _ h => by
    rw [List.append_nil]
    exact ⟨h, fun _ hi => (List.not_mem_nil hi).elim⟩
  refine Catalogue.resolves_induct ?_ ?_ ?_ ?_ ?_ ?_ ?_ ?_
  · intro v _ custody level log h
    exact hnone v h
  · intro space template compiled values plans hk _ ih custody level log h
    obtain ⟨-, rfl⟩ := hc space template compiled hk
    have hused := h.use ih custody space template
    exact ⟨hused.level, hused.instances⟩
  · intro values plans ih custody level log h
    exact ⟨ih custody level log h, fun _ hi => (List.not_mem_nil hi).elim⟩
  · intro custody level log h
    exact hnone [] h
  · intro v vs p ps ih ih' custody level log h
    have hfirst := ih custody level log h
    have hothers := ih' (custody.holding ((p.realize custody level).instances.flatMap Instance.held))
      _ _ hfirst.level
    rw [List.append_assoc] at hothers
    exact ⟨hothers.level, List.forall_mem_append.2
      ⟨fun i hi => List.append_assoc log _ _ ▸ (hfirst.instances i hi).append _, hothers.instances⟩⟩
  · intro custody level log h
    exact (hnone [] h : Realized.Follows ⟨([] : List Value), [], level⟩ _).level
  · intro v vs ps _ ih custody level log h
    exact ih custody level log h
  · intro space template compiled values plans vs ps ih ih' custody level log h
    have hslot := h.slot ih (custody.holding level.takeSlot.2.held)
    have hothers := ih' custody _ _ hslot
    rw [List.append_assoc, List.append_assoc] at hothers
    rw [deedsOfItems]
    · dsimp only
      rw [List.append_assoc]
      exact hothers
    · simp

end Level

/-- Showing a use with a cache is a chronicle, and leaves a cache of instances that have been made. -/
theorem Cache.follows_realize {c : Catalogue} (hc : c.Sound) {d : Document} {v : Value} {use : Use}
    (hlog : Chronicle log) (hd : outcome log = d) (hcache : cache.MadeIn log)
    (hv : c.Resolves v (.use use.space use.template use.compiled use.holes)) (custody : Custody) :
    Chronicle (log ++ cache.deeds custody d use) ∧
      outcome (log ++ cache.deeds custody d use) = (cache.realize custody d use).2.2 ∧
      (cache.realize custody d use).2.1.MadeIn (log ++ cache.deeds custody d use) := by
  cases hcache with
  | mk instances slots =>
    have hstart : Level.Follows ⟨cache.instances, cache.slots, [], d⟩ log :=
      ⟨hlog, hd, instances, slots, fun _ h => (List.not_mem_nil h).elim⟩
    have hused := (Level.follows_realize hc).1 hv (custody.holding (cache.root.elim [] Block.held)) _ log
      hstart
    have hclosed := hused.level.close hused.instances (custody.holding (cache.root.elim [] Block.held))
      cache.root
    rw [List.append_assoc] at hclosed
    exact hclosed

end LiveMarkup
