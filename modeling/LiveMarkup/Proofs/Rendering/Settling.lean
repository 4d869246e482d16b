import LiveMarkup.Proofs.Rendering.Rebinding
import LiveMarkup.Proofs.Rendering.Wiring
/-!
# Bindings at rest

Once a binding has shown a value it is at rest with it (`Binding.Rests`): the blocks that the value comes to
are its entries, its text says what the value says, and its attribute has that value. It stays at rest
whatever the other bindings of its instance do, for none of them writes to its text or attribute
(`Level.rests_fill`). Being given the value again a binding at rest changes nothing that can be seen
(`Binding.constant_update`).

This is so only if the value comes to the same blocks again. A fragment does not, for its children leave it
when they are shown. Nor are the blocks among the entries if the placeholder has been detached, which is
noted when the value is shown.
-/

namespace LiveMarkup

namespace Value

/-- The primitive that a value is shown as in a child hole. A list that starts with a primitive is one
text. -/
def line? (v : Value) : Option Value :=
  match v with
  | .bool _ | .number _ | .string _ => some v
  | .list (item :: _) => if item.isPrimitive then v.text?.map .string else none
  | _ => none

/-- The block that an item of a list is shown as. -/
def itemBlock? : Value → Option Block
  | .node n => some (.single n)
  | .block b => some b
  | _ => none

/-- The blocks that a value is shown as in a child hole, if no node in it is a fragment. -/
def blocks? : Value → Option (List Block)
  | .null => some []
  | .node n => some [.single n]
  | .block b => some [b]
  | .list [] => some []
  | .list (item :: rest) =>
    if item.isPrimitive then none else some ((item :: rest).filterMap itemBlock?)
  | _ => none

/-- The nodes that a value gives a child hole to show. -/
def hosted : Value → List NodeId
  | .node n => [n]
  | .list items => items.filterMap fun item => match item with
    | .node n => some n
    | _ => none
  | _ => []

/-- The nodes in a value are there, and none of them is a fragment. -/
def Solid (d : Document) (v : Value) : Prop :=
  ∀ n ∈ v.hosted, d.Has n ∧ d.isFragment n = false

theorem Solid.evolves {d d' : Document} {v : Value} (h : v.Solid d) {texts : List NodeId}
    {attributes : List AttributeId} (hd : d.Evolves d' texts attributes) : v.Solid d' := fun n hn =>
  ⟨hd.grows.has (h n hn).1, by rw [Document.isFragment, hd.kind n (h n hn).1]; exact (h n hn).2⟩

end Value

/-! ### What cannot be seen -/

namespace Document

variable {d d' d'' : Document} {c n : NodeId} {a : AttributeId} {custody : Custody}

/-- How often a placeholder has been found detached. -/
def detachments (d : Document) : Nat :=
  d.notices.count .placeholderDetached

theorem Evolves.detachments_le {texts : List NodeId} {attributes : List AttributeId}
    (h : d.Evolves d' texts attributes) : d.detachments ≤ d'.detachments :=
  h.notices.sublist.count_le _

/-- The value of no attribute has changed, and no node in any other way than where it stands. -/
structure Constant (d d' : Document) : Prop where
  grows : d.Grows d'
  notices : d.notices <:+ d'.notices
  unchanged : ∀ n, Unchanged d d' n
  value : ∀ a, (d'.attr a).value = (d.attr a).value

/-- A document has evolved without a change to what is below a node. -/
structure Still (d d' : Document) (c : NodeId) : Prop where
  evolves : d.Evolves d' [] []
  unchanged : ∀ n, d.Kept [c] n → Unchanged d d' n

namespace Constant

theorem refl (d : Document) : d.Constant d :=
  ⟨.refl d, List.suffix_refl _, .refl d, fun _ => rfl⟩

theorem note (d : Document) (notice : Notice) : d.Constant (d.note notice) :=
  ⟨(shifts_note d notice []).grows, (shifts_note d notice []).notices,
    fun _ => ⟨id, rfl, rfl, rfl, rfl, rfl⟩, fun _ => rfl⟩

theorem trans (h : d.Constant d') (h' : d'.Constant d'') : d.Constant d'' where
  grows := h.grows.trans h'.grows
  notices := h.notices.trans h'.notices
  unchanged n := (h.unchanged n).trans (h'.unchanged n)
  value a := (h'.value a).trans (h.value a)

theorem still (h : d.Constant d') (c : NodeId) : d.Still d' c where
  evolves := ⟨h.grows, h.notices, fun n _ => (h.unchanged n).kind, fun n _ _ => (h.unchanged n).data,
    fun a _ _ => h.value a⟩
  unchanged n _ := h.unchanged n

end Constant

namespace Still

theorem kept (h : d.Still d' c) (hn : d.Kept [c] n) : d'.Kept [c] n := by
  induction hn with
  | root hn => exact .root hn
  | child hp hn ih => exact .child ih ((h.unchanged _ hp).children ▸ hn)

theorem refl (d : Document) (c : NodeId) : d.Still d c :=
  (Constant.refl d).still c

theorem trans (h : d.Still d' c) (h' : d'.Still d'' c) : d.Still d'' c where
  evolves := h.evolves.trans h'.evolves
  unchanged n hn := (h.unchanged n hn).trans (h'.unchanged n (h.kept hn))

end Still

/-- Letting go of what is not held changes nothing below a node that is held. -/
theorem still_release (hc : c ∈ custody.nodes) : d.Still (d.release custody) c where
  evolves := evolves_release d custody
  unchanged n hn := by
    by_cases hhas : d.Has n
    · refine release_unchanged (hn.of_subset fun m hm => ?_) hhas
      exact List.mem_singleton.1 hm ▸ hc
    · have hnode : (d.release custody).node n = d.node n := by
        rw [release_eq, node_keepOnly_of_not_has hhas]
      refine ⟨fun h => absurd h hhas, ?_, ?_, ?_, ?_, ?_⟩
      · rw [kind, hnode, kind]
      · rw [hnode]
      · rw [hnode]
      · rw [attributePairs, hnode, node_of_not_has hhas, attributePairs, node_of_not_has hhas]
        rfl
      · rw [children, hnode, children]

/-- A text says what it is to say already. -/
theorem constant_setText (hkind : d.kind n = .text) {text : String} (h : (d.node n).data = text) :
    d.Constant (d.setText n text) := by
  have hset : d.setText n text = d.setData n text := by
    rw [setText, leaf?, hkind]
  have hnode : ∀ m, (d.setData n text).node m = d.node m := by
    intro m
    rw [setData, node_update]
    split
    · rename_i hm
      rw [hm.1, ← h]
      rfl
    · rfl
  have hsame : d.Evolves (d.setData n text) [n] [] := evolves_setData d (List.mem_singleton_self n) text
  rw [hset]
  refine ⟨hsame.grows, hsame.notices, fun m => ⟨hsame.grows.has, ?_, ?_, ?_, ?_, ?_⟩, fun _ => rfl⟩
  · rw [kind, hnode, kind]
  · rw [hnode]
  · rw [hnode]
  · rw [attributePairs, hnode, attributePairs]
    rfl
  · rw [children, hnode, children]

/-- An attribute has the value that it is to have already. -/
theorem constant_setAttributeValue {value : String} (h : (d.attr a).value = value) :
    d.Constant (d.setAttributeValue a value) := by
  have hattr : ∀ b, (d.setAttributeValue a value).attr b = d.attr b := by
    intro b
    rw [setAttributeValue, attr_updateAttribute]
    split
    · rename_i hb
      rw [hb.1, ← h]
      rfl
    · rfl
  have hsame : d.Evolves (d.setAttributeValue a value) [] [a] :=
    evolves_setAttributeValue d (List.mem_singleton_self a) value
  refine ⟨hsame.grows, hsame.notices, fun m => ⟨hsame.grows.has, rfl, rfl, rfl, ?_, rfl⟩, fun b => ?_⟩
  · exact List.map_congr_left fun b _ => by rw [hattr b]
  · rw [hattr b]

theorem constant_setProperty (name : String) (value : Value) : d.Constant (d.setProperty n name value) := by
  have hnode : ∀ m, ∃ properties, (d.setProperty n name value).node m = { d.node m with properties } := by
    intro m
    rw [setProperty, node_update]
    split
    · exact ⟨_, rfl⟩
    · exact ⟨_, rfl⟩
  have hsame : d.Evolves (d.setProperty n name value) [] [] := evolves_setProperty ..
  refine ⟨hsame.grows, hsame.notices, fun m => ?_, fun _ => rfl⟩
  obtain ⟨properties, hm⟩ := hnode m
  refine ⟨hsame.grows.has, ?_, ?_, ?_, ?_, ?_⟩
  · rw [kind, hm, kind]
  · rw [hm]
  · rw [hm]
  · rw [attributePairs, hm, attributePairs]
    rfl
  · rw [children, hm, children]

theorem constant_updateCell (element : NodeId) (value : Value) :
    d.Constant (Binding.updateCell element d value) := by
  unfold Binding.updateCell
  split
  · exact ⟨⟨Nat.le_refl _, Nat.le_refl _, Nat.le_refl _⟩, List.suffix_refl _,
      fun _ => ⟨id, rfl, rfl, rfl, rfl, rfl⟩, fun _ => rfl⟩
  · exact .refl d
  · exact .note ..

end Document

/-! ### Child holes -/

namespace ChildBinding

open Document

variable {b : ChildBinding} {d : Document} {v w : Value} {blocks : List Block}

/-- A value that is shown as a primitive is shown as just that. -/
theorem update_of_line (h : v.line? = some w) : b.update d v = b.showPrimitive d w := by
  cases v with
  | bool _ | number _ | string _ =>
    obtain rfl := Option.some.inj h
    rfl
  | list items =>
    cases items with
    | nil => cases h
    | cons item rest =>
      rw [Value.line?] at h
      split at h
      · rename_i hitem
        obtain ⟨joined, hjoined, rfl⟩ := Option.map_eq_some_iff.1 h
        rw [update, if_pos hitem, hjoined]
      · cases h
  | _ => cases h

/-- The blocks that items come to are known if there is no fragment among them, and no node is touched to
find them. -/
theorem blocksOfItems_eq (items : List Value) (d : Document) (h : (Value.list items).Solid d) :
    (blocksOfItems d items).1 = items.filterMap Value.itemBlock? ∧
      d.Constant (blocksOfItems d items).2 := by
  induction items generalizing d with
  | nil => exact ⟨rfl, .refl d⟩
  | cons item rest ih =>
    have hrest : (Value.list rest).Solid d := fun n hn => h n (by
      obtain ⟨a, ha, hn⟩ := List.mem_filterMap.1 hn
      exact List.mem_filterMap.2 ⟨a, List.mem_cons_of_mem _ ha, hn⟩)
    cases item with
    | block block =>
      obtain ⟨hblocks, hsame⟩ := ih d hrest
      refine ⟨?_, hsame⟩
      rw [blocksOfItems, List.filterMap_cons]
      exact congrArg (block :: ·) hblocks
    | node n =>
      obtain ⟨hblocks, hsame⟩ := ih d hrest
      have hsolid : d.isFragment n = false := (h n (List.mem_cons_self ..)).2
      refine ⟨?_, hsame⟩
      rw [blocksOfItems, blocksOf, hsolid, List.filterMap_cons]
      exact congrArg (Block.single n :: ·) hblocks
    | _ =>
      obtain ⟨hblocks, hsame⟩ := ih (d.note (.skippedItem _)) hrest
      refine ⟨?_, (Constant.note d _).trans hsame⟩
      rw [List.filterMap_cons]
      exact hblocks

/-- A value that is shown as blocks is shown as these. -/
theorem update_of_blocks (hblocks : v.blocks? = some blocks) (hsolid : v.Solid d) :
    ∃ d', d.Constant d' ∧ b.update d v = { b with shown := none }.showBlocks d' blocks := by
  cases v with
  | null | block _ =>
    obtain rfl := Option.some.inj hblocks
    exact ⟨d, .refl d, rfl⟩
  | node n =>
    obtain rfl := Option.some.inj hblocks
    have hn : d.isFragment n = false := (hsolid n (List.mem_singleton_self n)).2
    refine ⟨d, .refl d, ?_⟩
    rw [update, blocksOf, hn]
    rfl
  | list items =>
    cases items with
    | nil =>
      obtain rfl := Option.some.inj hblocks
      exact ⟨d, .refl d, rfl⟩
    | cons item rest =>
      rw [Value.blocks?] at hblocks
      split at hblocks
      · cases hblocks
      · rename_i hitem
        obtain rfl := Option.some.inj hblocks
        obtain ⟨hitems, hsame⟩ := blocksOfItems_eq (item :: rest) d hsolid
        refine ⟨_, hsame, ?_⟩
        rw [update, if_neg hitem, ← hitems]
  | _ => cases hblocks

/-- Nothing is shown of any other value. -/
theorem update_of_neither (hline : v.line? = none) (hblocks : v.blocks? = none) :
    (b.update d v).1 = b ∧ d.Constant (b.update d v).2 := by
  cases v with
  | list items =>
    cases items with
    | nil => cases hblocks
    | cons item rest =>
      rw [Value.blocks?] at hblocks
      split at hblocks
      · rename_i hitem
        rw [Value.line?, if_pos hitem, Option.map_eq_none_iff] at hline
        rw [update, if_pos hitem, hline]
        exact ⟨rfl, .note ..⟩
      · cases hblocks
  | bool _ | number _ | string _ => cases hline
  | null | node _ | block _ => cases hblocks
  | _ => exact ⟨rfl, .refl d⟩

/-- A binding shows a primitive: it remembers the same one, or has its text in use and that says it. -/
def Says (d : Document) (b : ChildBinding) (w : Value) : Prop :=
  b.shown.any (·.isSame w) = true ∨
    b.entries = [.single b.text] ∧ d.kind b.text = .text ∧ (d.node b.text).data = w.text?.getD ""

/-- A binding has shown a value. -/
structure Rests (d : Document) (b : ChildBinding) (v : Value) : Prop where
  line : ∀ w, v.line? = some w → b.Says d w
  blocks : ∀ bs, v.blocks? = some bs → b.entries = bs

/-- Blocks become the entries unless the placeholder is found detached. -/
theorem entries_showBlocks (hquiet : (b.showBlocks d blocks).2.detachments = d.detachments) :
    (b.showBlocks d blocks).1 = { b with entries := blocks } := by
  rw [showBlocks] at hquiet ⊢
  split at hquiet
  · rw [detachments, note, List.count_cons_self] at hquiet
    exact absurd hquiet (Nat.succ_ne_self _)
  · rename_i p hp
    dsimp only
    rw [Document.reconcile, Pass.result_run]
    simp [Pass.target, Pass.start]

/-- The entries are shown again. -/
theorem constant_showBlocks (h : b.entries = blocks) : d.Constant (b.showBlocks d blocks).2 := by
  cases hp : d.parent? b.placeholder with
  | none =>
    rw [showBlocks, hp]
    exact .note ..
  | some p =>
    rw [← h, showBlocks_self hp]
    exact .refl d

/-- Showing a value that can be shown again. -/
theorem rests_update (htext : d.Has b.text ∧ d.kind b.text = .text) (hsolid : v.Solid d)
    (hquiet : (b.update d v).2.detachments = d.detachments) :
    Rests (b.update d v).2 (b.update d v).1 v := by
  cases hline : v.line? with
  | some w =>
    have hnone : v.blocks? = none := by
      cases v with
      | list items =>
        cases items with
        | nil => cases hline
        | cons item rest =>
          rw [Value.line?] at hline
          split at hline
          · rename_i hitem
            rw [Value.blocks?, if_pos hitem]
          · cases hline
      | bool _ | number _ | string _ => rfl
      | _ => cases hline
    refine ⟨fun w' hw' => ?_, fun bs hbs => by rw [hnone] at hbs; cases hbs⟩
    obtain rfl := Option.some.inj (hline.symm.trans hw')
    rw [update_of_line hline] at hquiet ⊢
    rw [showPrimitive] at hquiet ⊢
    split
    · rename_i hsame
      exact .inl hsame
    · rename_i hsame
      rw [if_neg hsame] at hquiet
      have hset : d.Evolves (d.setText b.text (w.text?.getD "")) [b.text] [] :=
        evolves_setText d (List.mem_singleton_self _) _
      have hshow : Evolves (d.setText b.text (w.text?.getD "")) ({ b with shown := some w }.showBlocks
          (d.setText b.text (w.text?.getD "")) [.single b.text]).2 [] [] := evolves_showBlocks ..
      have hentries := entries_showBlocks (b := { b with shown := some w })
        (Nat.le_antisymm (hquiet.trans_le hset.detachments_le) hshow.detachments_le)
      rw [hentries]
      refine .inr ⟨rfl, ?_, ?_⟩
      · rw [hshow.kind _ (hset.grows.has htext.1), hset.kind _ htext.1]
        exact htext.2
      · rw [hshow.data _ (hset.grows.has htext.1) List.not_mem_nil, setText_of_kind htext.2,
          node_setData htext.1]
  | none =>
    refine ⟨fun w hw => absurd (hline.symm.trans hw) (Option.some_ne_none w).symm, fun bs hbs => ?_⟩
    obtain ⟨d', hsame, hupdate⟩ := update_of_blocks (b := b) hbs hsolid
    rw [hupdate] at hquiet ⊢
    have hle := (hsame.still b.text).evolves.detachments_le
    have hshow : Evolves d' ({ b with shown := none }.showBlocks d' bs).2 [] [] := evolves_showBlocks ..
    rw [entries_showBlocks (b := { b with shown := none })
      (Nat.le_antisymm (hquiet.trans_le hle) hshow.detachments_le)]

/-- Showing a value again. -/
theorem constant_update (h : b.Rests d v) (hsolid : v.Solid d) : d.Constant (b.update d v).2 := by
  cases hline : v.line? with
  | some w =>
    rw [update_of_line hline, showPrimitive]
    split
    · exact .refl d
    · rename_i hsame
      obtain ⟨hentries, hkind, hdata⟩ := (h.line w hline).resolve_left hsame
      exact (constant_setText hkind hdata).trans (constant_showBlocks hentries)
  | none =>
    cases hblocks : v.blocks? with
    | some bs =>
      obtain ⟨d', hsame, hupdate⟩ := update_of_blocks (b := b) hblocks hsolid
      rw [hupdate]
      exact hsame.trans (constant_showBlocks (h.blocks bs hblocks))
    | none => exact (update_of_neither hline hblocks).2

end ChildBinding

/-! ### All bindings -/

namespace Binding

open Document

variable {b : Binding} {d d' : Document} {v : Value} {texts : List NodeId} {attributes : List AttributeId}

/-- A binding has what it has been made with. -/
structure Equipped (d : Document) (b : Binding) : Prop where
  has_text : ∀ n ∈ b.texts, d.Has n ∧ d.kind n = .text
  has_attribute : ∀ a ∈ b.attributes, d.HasAttribute a

theorem Equipped.evolves (h : b.Equipped d) (hd : d.Evolves d' texts attributes) : b.Equipped d' where
  has_text n hn :=
    ⟨hd.grows.has (h.has_text n hn).1, (hd.kind n (h.has_text n hn).1).trans (h.has_text n hn).2⟩
  has_attribute a ha := hd.grows.hasAttribute (h.has_attribute a ha)

/-- A binding has shown a value. -/
def Rests (d : Document) : Binding → Value → Prop
  | .child c, v => c.Rests d v
  | .event _ _ current, v => ∀ next, listener? v = some next → current = next
  | .attr _ a attached last, v =>
    last.any (·.isSame v) = true ∨ v.text? = none ∨
      v.isNull = false ∧ attached = true ∧ v.text? = some (d.attr a).value
  | .text _ last, v => last.any (·.isSame v) = true ∨ v.text? = none
  | .cell _, _ | .property .., _ => True

/-- Nothing else that happens to the document disturbs a binding. -/
theorem Rests.evolves (h : b.Rests d v) (hb : b.Equipped d) (hd : d.Evolves d' texts attributes)
    (htexts : ∀ n ∈ b.texts, n ∉ texts) (hattributes : ∀ a ∈ b.attributes, a ∉ attributes) :
    b.Rests d' v := by
  cases b with
  | child c =>
    have hhas := (hb.has_text c.text (List.mem_singleton_self _)).1
    have hout := htexts c.text (List.mem_singleton_self _)
    refine ⟨fun w hw => (h.line w hw).imp_right fun ⟨hentries, hkind, hdata⟩ => ⟨hentries, ?_, ?_⟩, h.blocks⟩
    · rw [hd.kind _ hhas, hkind]
    · rw [hd.data _ hhas hout, hdata]
  | attr element a attached last =>
    have hhas := hb.has_attribute a (List.mem_singleton_self _)
    have hout := hattributes a (List.mem_singleton_self _)
    refine h.imp_right (Or.imp_right fun ⟨hnull, hattached, hvalue⟩ => ⟨hnull, hattached, ?_⟩)
    rw [hd.value a hhas hout]
    exact hvalue
  | _ => exact h

/-- Showing a value brings a binding to rest, if that shows it at all and, should it fill an element, makes
the same text of it again. -/
theorem rests_update (hb : b.Equipped d) (hsolid : v.Solid d)
    (hsteady : b.IsText → v.isSame v = true ∨ v.text? = none)
    (hquiet : (b.update d v).2.detachments = d.detachments) :
    Rests (b.update d v).2 (b.update d v).1 v := by
  cases b with
  | child c => exact c.rests_update (hb.has_text c.text (List.mem_singleton_self _)) hsolid hquiet
  | cell element => trivial
  | property element name last =>
    rw [update]
    split <;> trivial
  | event element type current =>
    rw [update]
    split
    · rename_i hnone
      exact fun next hnext => absurd (hnone.symm.trans hnext) (Option.some_ne_none next).symm
    · rename_i next hsome
      split
      · rename_i hsame
        exact fun next' hnext => hsame.trans (Option.some.inj (hsome.symm.trans hnext))
      · exact fun next' hnext => Option.some.inj (hsome.symm.trans hnext)
  | attr element a attached last =>
    have ha : d.HasAttribute a := hb.has_attribute a (List.mem_singleton_self _)
    rw [update]
    split
    · rename_i hsame
      exact .inl hsame
    · split
      · rename_i hnull
        exact .inl (Exposes.isSame_of_isNull hnull hnull)
      · rename_i hnull
        split
        · rename_i hnone
          exact .inr (.inl hnone)
        · rename_i t ht
          refine .inr (.inr ⟨by simpa using hnull, rfl, ht.trans (congrArg some ?_)⟩)
          have hset : ((d.setAttributeValue a t).attr a).value = t := by
            rw [attr_setAttributeValue ha]
          dsimp only
          split
          · exact hset.symm
          · have hput : Evolves (d.setAttributeValue a t) ((d.setAttributeValue a t).putAttribute element a)
              [] [] := evolves_putAttribute ..
            have hgrows : d.Evolves (d.setAttributeValue a t) [] [a] :=
              evolves_setAttributeValue d (List.mem_singleton_self a) t
            rw [hput.value a (hgrows.grows.hasAttribute ha) List.not_mem_nil]
            exact hset.symm
  | text element last =>
    rw [update]
    split
    · rename_i hsame
      exact .inl hsame
    · split
      · rename_i hnone
        exact .inr hnone
      · exact (hsteady trivial).imp_left id

/-- Being given a value again, a binding at rest changes nothing that can be seen. -/
theorem constant_update (h : b.Rests d v) (hsolid : v.Solid d) : d.Constant (b.update d v).2 := by
  cases b with
  | child c => exact c.constant_update h hsolid
  | cell element => exact constant_updateCell element v
  | property element name last =>
    rw [update]
    split
    · exact .refl d
    · exact constant_setProperty name v
  | event element type current =>
    rw [update]
    split
    · exact .note ..
    · rename_i next hnext
      rw [if_pos (h next hnext)]
      exact .refl d
  | attr element a attached last =>
    rw [update]
    split
    · exact .refl d
    · rename_i hsame
      split
      · rename_i hnull
        obtain rfl := Exposes.eq_null_of_isNull hnull
        rcases h with h | h | ⟨h, -⟩
        · exact absurd h hsame
        · cases h
        · cases h
      · split
        · exact .note ..
        · rename_i t ht
          obtain ⟨-, hattached, hvalue⟩ := (h.resolve_left hsame).resolve_left (by rw [ht]; simp)
          dsimp only
          rw [hattached, if_pos rfl]
          exact constant_setAttributeValue (Option.some.inj (hvalue.symm.trans ht))
  | text element last =>
    rw [update]
    split
    · exact .refl d
    · rename_i hsame
      rw [h.resolve_left hsame]
      exact .note ..

end Binding

/-! ### The bindings of an instance -/

namespace Level

open Binding Document

variable {c : NodeId}

theorem evolves_fill (level : Level) (custody : Custody) (bindings : List Binding)
    (values : List Value) : level.document.Evolves (level.fill custody bindings values).2.document
      (bindings.flatMap writes) (bindings.flatMap attributes) := by
  fun_induction fill level custody bindings values with
  | case1 level custody b bindings value values updated level' others ih =>
    have hupdate : level.document.Evolves updated.2 ((b :: bindings).flatMap writes)
        ((b :: bindings).flatMap attributes) :=
      evolves_updateBinding (List.subset_append_left ..) (List.subset_append_left ..) _ value
    have hrelease : updated.2.Evolves level'.document [] [] := evolves_release ..
    refine (hupdate.trans (hrelease.mono (List.nil_subset _) (List.nil_subset _))).trans ?_
    exact ih.mono (List.subset_append_right ..) (List.subset_append_right ..)
  | case2 => exact .refl _

/-- All bindings of an instance come to rest with the values that are shown, if no placeholder is found
detached. -/
theorem rests_fill (level : Level) (custody : Custody) (bindings : List Binding) (values : List Value)
    (hapart : bindings.Pairwise Apart) (hequipped : ∀ b ∈ bindings, b.Equipped level.document)
    (hsolid : ∀ v ∈ values, v.Solid level.document)
    (hsteady : ∀ p ∈ bindings.zip values, p.1.IsText → p.2.isSame p.2 = true ∨ p.2.text? = none)
    (hquiet : (level.fill custody bindings values).2.document.detachments = level.document.detachments) :
    ∀ p ∈ (level.fill custody bindings values).1.zip values,
      p.1.Rests (level.fill custody bindings values).2.document p.2 := by
  fun_induction fill level custody bindings values with
  | case1 level custody b bindings value values updated level' others ih =>
    obtain ⟨hb, hbs⟩ := List.forall_mem_cons.1 hequipped
    obtain ⟨hapartb, hapartbs⟩ := List.pairwise_cons.1 hapart
    obtain ⟨hvalue, hvalues⟩ := List.forall_mem_cons.1 hsolid
    obtain ⟨hsteadyb, hsteadybs⟩ := List.forall_mem_cons.1 hsteady
    have hupdate : level.document.Evolves updated.2 b.writes b.attributes :=
      evolves_updateBinding (.refl _) (.refl _) level.document value
    have hrelease : updated.2.Evolves level'.document [] [] := evolves_release ..
    have hfirst := hupdate.trans (hrelease.mono (List.nil_subset _) (List.nil_subset _))
    have hothers : level'.document.Evolves others.2.document _ _ := evolves_fill level' _ bindings values
    -- none of the steps finds a placeholder detached, as the number of such findings never drops
    have hlast : others.2.document.detachments = level'.document.detachments :=
      Nat.le_antisymm (hquiet.trans_le hfirst.detachments_le) hothers.detachments_le
    have hquietb : updated.2.detachments = level.document.detachments :=
      Nat.le_antisymm ((hrelease.detachments_le.trans_eq hlast.symm).trans_eq hquiet)
        hupdate.detachments_le
    have hrest : updated.1.Rests updated.2 value := b.rests_update hb hvalue hsteadyb hquietb
    -- the binding is left alone by those after it
    have hsite := b.site_update level.document value
    have htexts : updated.1.texts = b.texts := by
      rw [← texts_site, hsite, texts_site]
    have hattributes : updated.1.attributes = b.attributes := by
      rw [← attributes_site, hsite, attributes_site]
    have hb' : updated.1.Equipped updated.2 := by
      refine ⟨fun n hn => ?_, fun a ha => ?_⟩
      · exact (hb.evolves hupdate).has_text n (htexts ▸ hn)
      · exact (hb.evolves hupdate).has_attribute a (hattributes ▸ ha)
    have hrest' : updated.1.Rests others.2.document value := by
      refine Rests.evolves (Rests.evolves hrest hb' hrelease (fun _ _ => List.not_mem_nil)
        fun _ _ => List.not_mem_nil) (hb'.evolves hrelease) hothers (fun n hn hmem => ?_) fun a ha hmem => ?_
      · obtain ⟨e, he, hn'⟩ := List.mem_flatMap.1 hmem
        exact (hapartb e he).right n (htexts ▸ hn) hn'
      · obtain ⟨e, he, ha'⟩ := List.mem_flatMap.1 hmem
        exact (hapartb e he).attributes a (hattributes ▸ ha) ha'
    exact List.forall_mem_cons.2 ⟨hrest', ih hapartbs (fun e he => (hbs e he).evolves hfirst)
      (fun v hv => (hvalues v hv).evolves hfirst) hsteadybs hlast⟩
  | case2 level custody bindings values hne =>
    intro p hp
    cases bindings with
    | nil => cases hp
    | cons b bindings =>
      cases values with
      | nil => cases hp
      | cons v values => exact (hne b bindings v values rfl rfl).elim

/-- Bindings at rest are given the same values again. -/
theorem still_fill (level : Level) (custody : Custody) (bindings : List Binding) (values : List Value)
    (hc : c ∈ custody.nodes) (hequipped : ∀ b ∈ bindings, b.Equipped level.document)
    (hsolid : ∀ v ∈ values, v.Solid level.document)
    (hrests : ∀ p ∈ bindings.zip values, p.1.Rests level.document p.2) :
    level.document.Still (level.fill custody bindings values).2.document c := by
  fun_induction fill level custody bindings values with
  | case1 level custody b bindings value values updated level' others ih =>
    obtain ⟨-, hbs⟩ := List.forall_mem_cons.1 hequipped
    obtain ⟨hvalue, hvalues⟩ := List.forall_mem_cons.1 hsolid
    obtain ⟨hrest, hrests⟩ := List.forall_mem_cons.1 hrests
    have hstill : level.document.Still level'.document c :=
      ((Binding.constant_update hrest hvalue).still c).trans (still_release (List.mem_append_right _ hc))
    refine hstill.trans (ih (List.mem_append_right _ hc) (fun b hb => (hbs b hb).evolves hstill.evolves)
      (fun v hv => (hvalues v hv).evolves hstill.evolves) fun p hp => ?_)
    exact Rests.evolves (hrests p hp) (hbs p.1 (List.of_mem_zip hp).1) hstill.evolves
      (fun _ _ => List.not_mem_nil) fun _ _ => List.not_mem_nil
  | case2 => exact .refl _ c

end Level

end LiveMarkup
