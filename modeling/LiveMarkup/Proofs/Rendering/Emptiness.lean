import LiveMarkup.Proofs.Document.Hollow
import LiveMarkup.Proofs.Rendering.Succession
/-!
# After instances without nodes

The instance of a template without content is a group without nodes. A child hole that shows it has nothing in
front of its placeholder, but an entry all the same, and the next value finds that entry in its way
(`ChildBinding.update_after_hollow`): each such entry makes one error, and if it comes to be the last old one
while one new block is left, then that block is not shown. A hole that has shown such instances only shows
nothing of a next value that is a single block or a text, and all of any other one.
-/

namespace LiveMarkup

open Document

namespace Value

/-- Whether a child hole has a use for all of a value, as a text or as blocks. -/
def isShowable : Value → Bool
  | list (item :: rest) =>
    if item.isPrimitive then (list (item :: rest)).line?.isSome
    else (item :: rest).all fun item => (itemBlock? item).isSome
  | v => v.isUsable

end Value

namespace Document.Hosts

variable {d : Document} {N : Niche} {c : ChildBinding} {blocks : List Block}

/-- Blocks come to a hole that has hollow entries. -/
theorem showBlocks_hollow (h : d.Hosts N (c.entries.filter fun e => !e.isHollow)) (hc : c.placeholder = N.placeholder)
    (hfragments : ∀ e ∈ c.entries, e.isHollow = true → ∀ f ∈ e.fragments, d.isFragment f = true)
    (hnd : blocks.Nodup) (hmem : ∀ e ∈ blocks, e ∈ N.blocks) :
    let after := c.showBlocks d blocks
    let shown := (blocks.filter (· ∉ Pass.leftover c.entries blocks)).filter (· ∉ Pass.forfeited c.entries blocks)
    after.1 = { c with entries := blocks } ∧
      after.2.children N.container
        = N.ahead ++ shown.flatMap Block.nodes ++ N.placeholder :: N.behind ∧
      d.Complains after.2 (c.entries.countP Block.isHollow) := by
  obtain ⟨notices, hshows, hcomplains⟩ := reconcile_hollow h.shows hnd hmem hfragments
  have hrow := hshows.children
  rw [Stage.part_nil] at hrow
  rw [h.showBlocks_eq hc]
  exact ⟨rfl, hrow, hcomplains⟩

end Document.Hosts

namespace ChildBinding

variable {c : ChildBinding} {d : Document} {N : Niche} {v : Value}

/-- The blocks that items come to if all of them are blocks or nodes that are no fragments. -/
theorem blocksOfItems_of_whole {items : List Value} (hall : ∀ item ∈ items, (Value.itemBlock? item).isSome = true)
    (hsolid : ∀ n, Block.single n ∈ items.filterMap Value.itemBlock? → d.isFragment n = false) :
    blocksOfItems d items = (items.filterMap Value.itemBlock?, d) := by
  induction items with
  | nil => rfl
  | cons item rest ih =>
    obtain ⟨hitem, hrest⟩ := List.forall_mem_cons.1 hall
    have hlater := ih hrest fun n hn => hsolid n (by
      rw [List.filterMap_cons]
      split
      · exact hn
      · exact List.mem_cons_of_mem _ hn)
    cases item with
    | block e =>
      rw [blocksOfItems, hlater]
      rfl
    | node n =>
      have hn : d.isFragment n = false := hsolid n (List.mem_cons_self ..)
      rw [blocksOfItems, hlater, blocksOf, hn]
      rfl
    | _ => cases hitem

/-- A value that is shown as blocks. -/
theorem update_of_showable (hline : v.line? = none) (hv : v.isShowable = true) (text : NodeId)
    (hsolid : ∀ n, Block.single n ∈ v.entries text → d.isFragment n = false) :
    c.update d v = { c with shown := none }.showBlocks d (v.entries text) := by
  rw [Value.entries, if_neg (by rw [hline]; exact Bool.false_ne_true)] at hsolid ⊢
  cases v with
  | null | block _ => rfl
  | node n =>
    have hn : d.isFragment n = false := hsolid n (List.mem_singleton_self _)
    rw [update, blocksOf, hn]
    rfl
  | list items =>
    cases items with
    | nil => rfl
    | cons item rest =>
      have hitem : ¬ item.isPrimitive = true := fun hprimitive => by
        rw [Value.isShowable, if_pos hprimitive, hline] at hv
        cases hv
      rw [Value.isShowable, if_neg hitem, List.all_eq_true] at hv
      rw [Value.blocks?, if_neg hitem, Option.getD_some] at hsolid ⊢
      rw [update, if_neg hitem, blocksOfItems_of_whole hv hsolid]
  | bool _ | number _ | string _ => cases hline
  | _ => cases hv

/-- What a child hole shows of a value that comes after instances without nodes: what the value comes to, without
the blocks that are left over when the entries are reconciled, and without the one that was to take the place of
such an instance. There is an error for each of these instances, and no other. If they were all that the hole had,
then nothing is shown of a value that comes to one block, be it a text, a node or an instance, and all of any
other value. -/
theorem update_after_hollow (h : d.Hosts N (c.entries.filter fun e => !e.isHollow))
    (hplaceholder : c.placeholder = N.placeholder) (htext : c.text = N.text) (hshown : c.shown = none)
    (hfragments : ∀ e ∈ c.entries, e.isHollow = true → ∀ f ∈ e.fragments, d.isFragment f = true)
    (hv : v.isShowable = true) (hnd : (v.entries N.text).Nodup) (hmem : ∀ e ∈ v.entries N.text, e ∈ N.blocks) :
    let after := c.update d v
    let new := v.entries N.text
    let shown := (new.filter (· ∉ Pass.leftover c.entries new)).filter (· ∉ Pass.forfeited c.entries new)
    after.1.entries = new ∧
      after.2.children N.container
        = N.ahead ++ shown.flatMap Block.nodes ++ N.placeholder :: N.behind ∧
      d.Complains after.2 (c.entries.countP Block.isHollow) ∧
      ((∀ e ∈ c.entries, e.isHollow = true) → c.entries ≠ [] →
        shown = if new.length = 1 then [] else new) := by
  intro after new shown
  have hall (ha : ∀ e ∈ c.entries, e.isHollow = true) (hne : c.entries ≠ []) :
      shown = if new.length = 1 then [] else new :=
    shown_of_all_hollow ha hne fun e he => (h.holds e (hmem e he)).not_hollow
  cases hline : v.line? with
  | some w =>
    have hnew : new = [.single N.text] := if_pos (by rw [hline]; rfl)
    have hafter : after = { c with shown := some w }.showBlocks (d.setText N.text (w.text?.getD "")) new := by
      show c.update d v = _
      rw [update_of_line hline, showPrimitive, hshown, if_neg (by simp), htext, hnew]
    obtain ⟨hset, -, hleaves⟩ := h.setText (w.text?.getD "")
    have hnotices : (d.setText N.text (w.text?.getD "")).notices = d.notices := by
      rw [setText_of_kind h.text]
      rfl
    obtain ⟨hfirst, hrow, hcomplains⟩ := Hosts.showBlocks_hollow (c := { c with shown := some w }) hset hplaceholder
      (fun e he hhollow f hf => by
        have hkind : (d.setText N.text (w.text?.getD "")).kind f = d.kind f := by
          rw [setText_of_kind h.text]
          exact kind_setData
        rw [isFragment, hkind]
        exact hfragments e he hhollow f hf) hnd hmem
    rw [hafter]
    refine ⟨by rw [hfirst], hrow, ?_, hall⟩
    obtain ⟨errors, herrors⟩ := hcomplains
    exact ⟨errors, hnotices ▸ herrors⟩
  | none =>
    have hafter : after = { c with shown := none }.showBlocks d new :=
      update_of_showable hline hv N.text fun n hn => (h.holds _ (hmem _ hn)).solid n (List.mem_singleton_self n)
    obtain ⟨hfirst, hrow, hcomplains⟩ := Hosts.showBlocks_hollow (c := { c with shown := none }) h hplaceholder
      hfragments hnd hmem
    rw [hafter]
    exact ⟨by rw [hfirst], hrow, hcomplains, hall⟩

/-- The hole of `commentNiche` when it shows an instance without nodes: a group with an empty fragment. -/
def hollowInParagraph : Document :=
  (commentInParagraph.create .fragment "").2

theorem hosts_hollowInParagraph : hollowInParagraph.Hosts commentNiche [] := by
  have h := hosts_commentInParagraph
  have hhas : commentInParagraph.Has commentNiche.text := by decide +kernel
  have hparent (n : NodeId) : hollowInParagraph.parent? n = commentInParagraph.parent? n := parent?_create
  have hchildren (n : NodeId) : hollowInParagraph.children n = commentInParagraph.children n := children_create
  refine ⟨h.sound.create _ _, (kind_create hhas).trans h.text, fun e he => (h.holds e he).evolves
    (evolves_create commentInParagraph .fragment "" : Evolves _ _ [] []), h.apart, h.outside,
    fun e he n hn ha => ?_, h.mem, (hchildren _).trans h.row, (fun e he => by cases he), fun e he hlive => ?_⟩
  · exact h.clear e he n hn (ha.congr fun n _ => hparent n)
  · refine ⟨fun n hn => ?_, fun g hg => ?_⟩
    · rw [hparent]
      exact (h.stowed e he hlive).absent n hn
    · rw [Whole, Parted, hchildren, hparent]
      exact (h.stowed e he hlive).ready g hg

/-- A text that comes after an instance without nodes is missing, and two blocks that come after two of them are
there. -/
theorem update_after_hollow_paragraph :
    let hollow : Block := .group ⟨1, ⟨10⟩, []⟩
    let c : ChildBinding := ⟨⟨3⟩, ⟨9⟩, none, [hollow]⟩
    hollowInParagraph.Hosts commentNiche (c.entries.filter fun e => !e.isHollow) ∧
      (∀ e ∈ c.entries, e.isHollow = true → ∀ f ∈ e.fragments, hollowInParagraph.isFragment f = true) ∧
      (c.update hollowInParagraph (.string "x")).2.children ⟨1⟩ = [⟨2⟩, ⟨3⟩, ⟨4⟩] ∧
      hollowInParagraph.Complains (c.update hollowInParagraph (.string "x")).2 1 ∧
      (c.update hollowInParagraph (.list [.node ⟨8⟩, .block (.group ⟨0, ⟨5⟩, [⟨6⟩, ⟨7⟩]⟩)])).2.children ⟨1⟩
        = [⟨2⟩, ⟨8⟩, ⟨6⟩, ⟨7⟩, ⟨3⟩, ⟨4⟩] := by
  intro hollow c
  have hhosts : hollowInParagraph.Hosts commentNiche (c.entries.filter fun e => !e.isHollow) :=
    hosts_hollowInParagraph
  have hfragments : ∀ e ∈ c.entries, e.isHollow = true → ∀ f ∈ e.fragments,
      hollowInParagraph.isFragment f = true := by decide +kernel
  have hall : ∀ e ∈ c.entries, e.isHollow = true := by decide
  obtain ⟨-, hrow, hcomplains, hshown⟩ := update_after_hollow (v := .string "x") hhosts rfl rfl rfl hfragments rfl
    (List.nodup_singleton _) (by decide)
  rw [hshown hall (List.cons_ne_nil _ _)] at hrow
  obtain ⟨-, hrow', -, hshown'⟩ := update_after_hollow
    (v := .list [.node ⟨8⟩, .block (.group ⟨0, ⟨5⟩, [⟨6⟩, ⟨7⟩]⟩)]) hhosts rfl rfl rfl hfragments rfl
    (by decide) (by decide)
  rw [hshown' hall (List.cons_ne_nil _ _)] at hrow'
  exact ⟨hhosts, hfragments, hrow, hcomplains, hrow'⟩

end ChildBinding

end LiveMarkup
