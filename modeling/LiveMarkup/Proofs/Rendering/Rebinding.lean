import LiveMarkup.Proofs.Rendering.Comparison
import LiveMarkup.Proofs.Rendering.Exposure
import LiveMarkup.Proofs.Rendering.Updating
/-!
# Updating a binding again

A binding that remembers what it has shown is brought up to date with a value of the same shape. It does
nothing if the value is the same as before, and otherwise makes the least change: a text says something
else, is put in its place or taken away, an attribute gets another value, is put on its element or taken
off, or the content of an element is made anew. At most two changes are counted, and none if nothing has
changed (`Document.Exposes.update`).
-/

namespace LiveMarkup

open Exhibit

/-! ### Showing the same blocks -/

namespace Pass

variable {s : Pass Block} {site : Site Block}

/-- Where nothing is to change, nothing is done. -/
theorem document_run_of_eq (h : s.old = s.new) : (s.run site).document = s.document := by
  generalize hl : s.old = l at h
  induction l generalizing s with
  | nil =>
    rw [run, dif_pos (by simp [isDone, hl, ← h])]
  | cons o os ih =>
    have hstep : s.step site = { s with old := os, new := os, front := o :: s.front } := by
      rw [step, hl, ← h]
      exact if_pos rfl
    rw [run, dif_neg (by simp [isDone, hl]), hstep]
    exact ih rfl rfl

end Pass

namespace ChildBinding

variable {b : ChildBinding} {d : Document} {p : NodeId}

/-- The blocks that are there already are shown without doing anything. -/
theorem showBlocks_self (hp : d.parent? b.placeholder = some p) :
    b.showBlocks d b.entries = (b, d) := by
  have hdocument : (d.reconcile (b.site p) b.entries b.entries).document = d :=
    Pass.document_run_of_eq rfl
  have hresult : (d.reconcile (b.site p) b.entries b.entries).result = b.entries := by
    rw [Document.reconcile, Pass.result_run]
    simp [Pass.target, Pass.start]
  rw [showBlocks, hp]
  dsimp only
  rw [hdocument, hresult]

/-- A single node is shown no longer. -/
theorem showBlocks_nil {n : NodeId} (hp : d.parent? b.placeholder = some p)
    (hentries : b.entries = [.single n]) :
    b.showBlocks d [] = ({ b with entries := [] }, d.removeChild p n) := by
  have hrun : d.reconcile (b.site p) [.single n] []
      = (Pass.start d [Block.single n] []).removeRest (b.site p) := by
    rw [Document.reconcile, Pass.run, dif_neg (by simp [Pass.isDone, Pass.start])]
    exact Pass.run_of_new _ _ rfl
  rw [showBlocks, hp, hentries]
  dsimp only
  rw [hrun]
  rfl

end ChildBinding

namespace Document.Exposes

variable {d : Document} {c n : NodeId} {fixed kept : List NodeId} {stock : Stock} {K : Exhibit → Exhibit}
  {i : Instance} {roots : List Plant} {e : Binding × Spot} {A B : List (Binding × Spot)} {x : Exhibit}
  {l r : List Exhibit} {h : Hole} {p p' : Plan}

/-- Nothing is exchanged. -/
theorem amends_self (hK : Around kept K)
    (g : d.Exposes c fixed stock (K (seated i roots (A ++ e :: B) (l ++ x :: r))))
    (hlength : A.length = l.length) : Amends (fun q => [q]) e.2.place e e
      (K (seated i roots (A ++ e :: B) (l ++ x :: r))) (K (seated i roots (A ++ e :: B) (l ++ x :: r))) := by
  have hx := hK.proper g.proper
  obtain ⟨_, _, _, _, H⟩ := hx.exists_hole hlength
  have hn : e.2.place ∈ Plant.idsAll roots := H.at_.place_mem
  have hself : Plant.graftAll (fun q => [q]) (seated i roots (A ++ e :: B) (l ++ x :: r)).plants
      = (seated i roots (A ++ e :: B) (l ++ x :: r)).plants :=
    Plant.graftAll_eq_self fun q _ => rfl
  exact hK.amends g.proper g.nodup_nodes (amends_entry hx hlength (fun q _ => rfl)
    (by rw [nodes_seated]; simp [hn]) (by rw [hself]; exact .refl _) (fun _ hat => hat) H.modest rfl)

/-- An entry of a use is one of what is around it. -/
theorem mem_entries (hK : Around kept K)
    (g : d.Exposes c fixed stock (K (seated i roots (A ++ e :: B) (l ++ x :: r))))
    (hlength : A.length = l.length) : e ∈ (K (seated i roots (A ++ e :: B) (l ++ x :: r))).entries := by
  obtain ⟨A', B', hentries, -⟩ := (amends_self hK g hlength).entries
  rw [hentries]
  simp

section Child

variable {b : ChildBinding} {plants : List Plant}

/-- A placeholder has a parent. -/
theorem exists_parent (hK : Around kept K)
    (g : d.Exposes c fixed stock (K (seated i roots (A ++ (.child b, .child n plants) :: B) (l ++ x :: r))))
    (hlength : A.length = l.length) :
    n ∈ Plant.idsAll (K (seated i roots (A ++ (.child b, .child n plants) :: B)
      (l ++ x :: r))).plants ∧ ∃ p, d.parent? n = some p := by
  have hbeside := hK.beside g.proper g.nodup_nodes (beside_placeholder (hK.proper g.proper)
    (hK.nodup g.nodup_nodes) hlength)
  obtain ⟨ps, hready, halike⟩ := g.ready
  obtain ⟨row, hrow, hn, -⟩ := hbeside
  have hmem := hrow.ids_subset (mem_idsAll_of_mem_map hn)
  refine ⟨hmem, ?_⟩
  rcases hready.bears.parent_of_mem hready.sound.forest (halike.idsAll ▸ hmem) with ⟨hroot, -⟩ | ⟨p, hp, -⟩
  · cases hroot
  · exact ⟨p, hp⟩

/-- A child binding is brought up to date. -/
theorem update_child (hK : Around kept K)
    (g : d.Exposes c fixed stock (K (seated i roots (A ++ (.child b, .child n plants) :: B) (l ++ x :: r))))
    (hlength : A.length = l.length) (hplaceholder : b.placeholder = n) (hkind : d.kind b.text = .text)
    (hshown : Shown (.child b, .child n plants) x.blocks p) (hx : x.Shows p') (hlike : p.Like p')
    (hfits : p.Fits) (hfits' : p'.Fits) :
    ∃ b' plants' d', b.update d x.result = (b', d') ∧
      d'.Exposes c fixed stock
        (K (seated i roots (A ++ (.child b', .child n plants') :: B) (l ++ x :: r))) ∧
      d.Steady d' c fixed ∧ d'.mutations ≤ d.mutations + 2 * p.outer p' ∧
      Shown (.child b', .child n plants') x.blocks p' ∧ b'.text = b.text := by
  obtain ⟨hvisible, q, hq⟩ := exists_parent hK g hlength
  subst hplaceholder
  have hupdate := ChildBinding.update_result b d hx hfits'
  have hx' := hK.proper g.proper
  have hnd := hK.nodup g.nodup_nodes
  obtain ⟨hmemory, hplants⟩ := hshown
  have hblocks : p'.primitive?.isSome = true → x.blocks = [] ∧ x.plants = [] := by
    intro hsome
    obtain ⟨w, hw⟩ := Option.isSome_iff_exists.1 hsome
    have hpieces := pieces_of_primitive hx hfits' hw
    exact ⟨by rw [blocks, hpieces]; rfl, by rw [plants_eq_pieces.1, hpieces, List.flatMap_nil]⟩
  cases hv : p.primitive? with
  | none =>
    rw [hv] at hmemory hplants
    obtain ⟨hentries, rfl⟩ := hplants
    have hnone : b.shown = none := by
      cases hs : b.shown with
      | none => rfl
      | some u => rw [hs] at hmemory; cases hmemory
    cases hw : p'.primitive? with
    | none =>
      have hsame : { b with shown := none } = b := by rw [← hnone]
      rw [hw] at hupdate
      dsimp only at hupdate
      rw [hsame, ← hentries, ChildBinding.showBlocks_self hq] at hupdate
      refine ⟨b, [], d, hupdate, g, .refl d c fixed, Nat.le_add_right _ _, ?_⟩
      rw [Shown, hw]
      exact ⟨⟨hmemory, hentries, rfl⟩, rfl⟩
    | some w =>
      obtain ⟨hnoblocks, hnoplants⟩ := hblocks (by rw [hw]; rfl)
      rw [hw] at hupdate
      dsimp only at hupdate
      rw [ChildBinding.showPrimitive_of_shown hq (hentries.trans hnoblocks) hnone hkind] at hupdate
      have ha := hK.amends g.proper g.nodup_nodes (amends_insert
        { b with shown := some w, entries := [.single b.text] } hx' hnd hlength rfl hnoplants
        w.written)
      obtain ⟨q', hq', hexposes, hsteady⟩ := g.insert ha rfl rfl hvisible
      obtain rfl : q = q' := Option.some.inj (hq.symm.trans hq')
      refine ⟨_, [.text b.text w.written], _, hupdate, hexposes, hsteady, ?_, ?_⟩
      · have hpos := Plan.changes_pos hlike hfits hfits' (by rw [hv, hw]; simp)
        rw [insertBlock, mutations_insertBefore]
        show d.mutations + 1 + 1 ≤ _
        omega
      · rw [Shown, hw]
        exact ⟨⟨.some (.inl rfl), rfl, rfl⟩, rfl⟩
  | some v =>
    rw [hv] at hmemory hplants
    obtain ⟨hentries, rfl⟩ := hplants
    cases hw : p'.primitive? with
    | none =>
      have hpos := Plan.changes_pos hlike hfits hfits' (by rw [hv, hw]; simp)
      have hnoblocks : x.blocks = [] := by
        obtain ⟨v', rfl⟩ := Plan.eq_leaf_of_isFlat
          ((Plan.isFlat_eq_of_like hlike).symm.trans (Plan.isFlat_of_primitive? hv)) hw
        rw [eq_leaf_of_shows hx]
        rfl
      rw [hw] at hupdate
      dsimp only at hupdate
      rw [hnoblocks, ChildBinding.showBlocks_nil (b := { b with shown := none }) hq hentries] at hupdate
      have ha := hK.amends g.proper g.nodup_nodes (amends_withdraw
        { b with shown := none, entries := [] } hx' hnd hlength rfl)
      obtain ⟨q', hq', hexposes, hsteady⟩ := g.withdraw ha rfl rfl (hK.beside g.proper g.nodup_nodes
        (beside_text hx' hnd hlength))
      obtain rfl : q = q' := Option.some.inj (hq.symm.trans hq')
      refine ⟨_, [], _, hupdate, hexposes, hsteady, ?_, ?_⟩
      · have hle := mutations_removeChild_le (d := d) (p := q) (n := b.text)
        omega
      · rw [Shown, hw]
        exact ⟨⟨.none, hnoblocks.symm, rfl⟩, rfl⟩
    | some w =>
      obtain ⟨u, hu, hpasses⟩ : ∃ u, b.shown = some u ∧ u.Passes v := by
        cases hs : b.shown with
        | none => rw [hs] at hmemory; cases hmemory
        | some u =>
          rw [hs] at hmemory
          cases hmemory with
          | some h => exact ⟨u, rfl, h⟩
      rw [hw] at hupdate
      dsimp only at hupdate
      rw [ChildBinding.showPrimitive, hu, Option.any_some] at hupdate
      by_cases hsame : u.isSame w = true
      · rw [if_pos hsame] at hupdate
        refine ⟨b, _, d, hupdate, g, .refl d c fixed, Nat.le_add_right _ _, ?_⟩
        rw [Shown, hw, hu]
        refine ⟨⟨.some (.inr hsame), hentries, ?_⟩, rfl⟩
        rw [← hpasses.written, Value.written_eq_of_isSame hsame]
      · have hpos : 1 ≤ p.outer p' := by
          rw [Nat.one_le_iff_ne_zero]
          intro hzero
          rw [Plan.outer, if_pos (Plan.isFlat_of_primitive? hv)] at hzero
          exact hsame (hpasses.isSame (Plan.isSame_of_changes hlike hv hw hfits hzero))
        rw [if_neg hsame, ChildBinding.setText_of_kind hkind] at hupdate
        have hq' : (d.setData b.text (w.text?.getD "")).parent? b.placeholder = some q :=
          parent?_setData.trans hq
        have hself : { b with shown := some w }.showBlocks (d.setData b.text (w.text?.getD ""))
            [.single b.text] = ({ b with shown := some w }, d.setData b.text (w.text?.getD "")) := by
          rw [← hentries]
          exact ChildBinding.showBlocks_self (b := { b with shown := some w }) hq'
        rw [hself] at hupdate
        have ha := hK.amends g.proper g.nodup_nodes (amends_say { b with shown := some w } hx' hnd
          hlength rfl w.written)
        obtain ⟨hexposes, hsteady⟩ := g.say ha rfl rfl
        refine ⟨_, _, _, hupdate, hexposes, hsteady, ?_, ?_⟩
        · rw [mutations_setData]
          omega
        · rw [Shown, hw]
          exact ⟨⟨.some (.inl rfl), hentries, rfl⟩, rfl⟩

end Child

section Plain

variable {v w : Value} {blocks : List Block}

theorem outer_leaf (v w : Value) : (Plan.leaf v).outer (.leaf w) = if v.isSame w then 0 else 1 := rfl

/-- Unless a value is taken for the same as the one before, something has changed. -/
theorem outer_of_not_isSame {u : Value} (hu : u.Passes v) (h : ¬ u.isSame w = true) :
    (Plan.leaf v).outer (.leaf w) = 1 := by
  rw [outer_leaf, if_neg fun hvw => h (hu.isSame hvw)]

theorem eq_null_of_isNull {u : Value} (hu : u.isNull = true) : u = .null := by
  cases u <;> first | rfl | cases hu

theorem isSame_of_isNull {u : Value} (hu : u.isNull = true) (hw : w.isNull = true) :
    u.isSame w = true := by
  rw [eq_null_of_isNull hu, eq_null_of_isNull hw]
  rfl

/-- An attribute binding is brought up to date. -/
theorem update_attr {a : AttributeId} {attached : Bool} {last : Option Value} {name : String}
    {value : Option String} (hK : Around kept K)
    (g : d.Exposes c fixed stock
      (K (seated i roots (A ++ (.attr n a attached last, .attr n name value) :: B) (l ++ x :: r))))
    (hlength : A.length = l.length)
    (hshown : Shown (.attr n a attached last, .attr n name value) blocks (.leaf v)) (hw : w.IsPlain) :
    ∃ attached' last' value' d',
      (Binding.attr n a attached last).update d w = (.attr n a attached' last', d') ∧
      d'.Exposes c fixed stock
        (K (seated i roots (A ++ (.attr n a attached' last', .attr n name value') :: B) (l ++ x :: r))) ∧
      d.Steady d' c fixed ∧ d'.mutations ≤ d.mutations + 2 * (Plan.leaf v).outer (.leaf w) ∧
      Shown (.attr n a attached' last', .attr n name value') blocks (.leaf w) := by
  obtain ⟨hlast, hattached, hvalue⟩ := hshown
  obtain ⟨u, rfl, hu⟩ : ∃ u, last = some u ∧ u.Passes v := by
    cases hlast with
    | some h => exact ⟨_, rfl, h⟩
  rw [Plan.value] at hattached hvalue
  have hx := hK.proper g.proper
  have hnd := hK.nodup g.nodup_nodes
  have hmem := mem_entries hK g hlength
  -- all that is left to say is which change is made
  have hstep : ∀ attached' value' d', Ready.Valued d n a value value' d' →
      d'.Exposes c fixed stock (K (seated i roots
        (A ++ (.attr n a attached' (some w), .attr n name value') :: B) (l ++ x :: r))) ∧
        d.Steady d' c fixed := fun attached' value' d' hvalued =>
    g.value hmem (amends_self hK g hlength).mem hvalued fun F hF =>
      hK.amends g.proper g.nodup_nodes (amends_value hx hnd hlength hF)
  by_cases hsame : u.isSame w = true
  · have hnull : w.isNull = v.isNull := (Value.isNull_eq_of_isSame hsame).symm.trans hu.isNull
    have hwritten : w.written = v.written := (Value.written_eq_of_isSame hsame).symm.trans hu.written
    refine ⟨attached, some u, value, d, ?_, g, .refl d c fixed, Nat.le_add_right _ _,
      .some (.inr hsame), ?_, ?_⟩
    · rw [Binding.update, if_pos (by exact hsame)]
    · rw [Plan.value, hnull]
      exact hattached
    · rw [Plan.value, hnull, hwritten]
      exact hvalue
  · rw [outer_of_not_isSame hu hsame]
    cases hnull : w.isNull with
    | true =>
      have hv : v.isNull = false := by
        rw [← hu.isNull, ← Bool.not_eq_true]
        exact fun hnull' => hsame (isSame_of_isNull hnull' hnull)
      rw [hv] at hattached hvalue
      rw [if_neg Bool.false_ne_true] at hvalue
      subst hattached hvalue
      obtain ⟨hexposes, hsteady⟩ := hstep false none _ (.take v.written)
      refine ⟨false, some w, none, _, ?_, hexposes, hsteady, ?_, .some (.inl rfl), ?_, ?_⟩
      · rw [Binding.update, if_neg (by exact hsame), if_pos hnull]
        rfl
      · have hle := mutations_takeAttribute_le (d := d) (n := n) (a := a)
        omega
      · rw [Plan.value, hnull]
        rfl
      · rw [Plan.value, hnull]
        rfl
    | false =>
      cases hv : v.isNull with
      | true =>
        rw [hv] at hattached hvalue
        rw [if_pos rfl] at hvalue
        subst hattached hvalue
        obtain ⟨hexposes, hsteady⟩ := hstep true (some w.written) _ (.put w.written)
        refine ⟨true, some w, some w.written, _, ?_, hexposes, hsteady, ?_, .some (.inl rfl), ?_, ?_⟩
        · rw [Binding.update, if_neg (by exact hsame), hnull, if_neg Bool.false_ne_true,
            Value.text?_of_isPlain hw]
          rfl
        · have hle := mutations_putAttribute_le (d := d.setAttributeValue a w.written) (n := n) (a := a)
          rw [mutations_setAttributeValue] at hle
          omega
        · rw [Plan.value, hnull]
          rfl
        · rw [Plan.value, hnull]
          rfl
      | false =>
        rw [hv] at hattached hvalue
        rw [if_neg Bool.false_ne_true] at hvalue
        subst hattached hvalue
        obtain ⟨hexposes, hsteady⟩ := hstep true (some w.written) _ (.change v.written w.written)
        refine ⟨true, some w, some w.written, _, ?_, hexposes, hsteady, ?_, .some (.inl rfl), ?_, ?_⟩
        · rw [Binding.update, if_neg (by exact hsame), hnull, if_neg Bool.false_ne_true,
            Value.text?_of_isPlain hw]
          rfl
        · rw [mutations_setAttributeValue]
          omega
        · rw [Plan.value, hnull]
          rfl
        · rw [Plan.value, hnull]
          rfl

/-- A text binding is brought up to date. -/
theorem update_text {last : Option Value} {content : Option (List Plant)} (hK : Around kept K)
    (g : d.Exposes c fixed stock
      (K (seated i roots (A ++ (.text n last, .text n content) :: B) (l ++ x :: r))))
    (hlength : A.length = l.length) (hhas : d.Has n) (helement : d.isElement n = true)
    (hshown : Shown (.text n last, .text n content) blocks (.leaf v)) (hw : w.IsPlain) :
    ∃ last' content' d', (Binding.text n last).update d w = (.text n last', d') ∧
      d'.Exposes c fixed stock
        (K (seated i roots (A ++ (.text n last', .text n content') :: B) (l ++ x :: r))) ∧
      d.Steady d' c fixed ∧ d'.mutations ≤ d.mutations + 2 * (Plan.leaf v).outer (.leaf w) ∧
      Shown (.text n last', .text n content') blocks (.leaf w) := by
  have hmodest := modest_of_shown hshown
  obtain ⟨hlast, old, rfl, htrees⟩ := hshown
  obtain ⟨u, rfl, hu⟩ : ∃ u, last = some u ∧ u.Passes v := by
    cases hlast with
    | some h => exact ⟨_, rfl, h⟩
  rw [Plan.value] at htrees
  by_cases hsame : u.isSame w = true
  · have hwritten : w.written = v.written := (Value.written_eq_of_isSame hsame).symm.trans hu.written
    refine ⟨some u, some old, d, ?_, g, .refl d c fixed, Nat.le_add_right _ _, .some (.inr hsame),
      old, rfl, ?_⟩
    · rw [Binding.update, if_pos (by exact hsame)]
    · rw [Plan.value, hwritten]
      exact htrees
  · have hx := hK.proper g.proper
    have hnd := hK.nodup g.nodup_nodes
    have hr := rewritten_setText g.sound hhas helement w.written
    have htrees' : Plant.trees (if w.written.isEmpty then [] else [.text d.next w.written])
        = if w.written.isEmpty then [] else [.text w.written] := by
      split <;> simp [Plant.tree]
    have hnodup : (Plant.idsAll (if w.written.isEmpty then [] else
        [.text d.next w.written])).Nodup := by
      split <;> simp [Plant.ids]
    have hmodest' : ∀ q ∈ (if w.written.isEmpty then [] else [Plant.text d.next w.written]),
        ∃ id data, q = .text id data := by
      intro q hq
      split at hq
      · cases hq
      · exact ⟨_, _, List.mem_singleton.1 hq⟩
    generalize (if w.written.isEmpty then [] else [Plant.text d.next w.written]) = new at *
    have hn : n ∈ (seated i roots (A ++ (.text n (some u), .text n (some old)) :: B)
        (l ++ x :: r)).nodes := by
      obtain ⟨_, _, _, _, H⟩ := hx.exists_hole hlength
      rw [nodes_seated]
      simp [show n ∈ Plant.idsAll roots from H.at_.place_mem]
    have ha := hK.amends g.proper g.nodup_nodes (amends_refill (some w) hx hnd hlength hmodest')
    obtain ⟨hexposes, hsteady⟩ := g.refill ha hr hnodup ha.mem (fun q hq hid =>
      children_of_text hx hnd hlength (hK.occurs g.proper g.nodup_nodes hq (hid ▸ hn)) hid) hmodest
    refine ⟨some w, some new, _, ?_, hexposes, hsteady, ?_, .some (.inl rfl), new, rfl, htrees'⟩
    · rw [Binding.update, if_neg (by exact hsame), Value.text?_of_isPlain hw]
    · rw [outer_of_not_isSame hu hsame, mutations_setText]
      omega

end Plain

/-- A binding is brought up to date. -/
theorem update (hK : Around kept K)
    (g : d.Exposes c fixed stock (K (seated i roots (A ++ e :: B) (l ++ x :: r))))
    (hlength : A.length = l.length) (hat : h.At roots e) (hshown : Shown e x.blocks p) (hx : x.Shows p')
    (hlike : p.Like p') (hfits : p.Fits) (hfits' : p'.Fits) (hleaf : h.kind ≠ .child → ∃ v, p = .leaf v) :
    ∃ e' d', e.1.update d x.result = (e'.1, d') ∧
      d'.Exposes c fixed stock (K (seated i roots (A ++ e' :: B) (l ++ x :: r))) ∧
      d.Steady d' c fixed ∧ d'.mutations ≤ d.mutations + 2 * p.outer p' ∧
      h.At roots e' ∧ Shown e' x.blocks p' ∧ e'.1.texts = e.1.texts := by
  obtain ⟨ps, rest, hready, -, -⟩ := g.exists_ready (mem_entries hK g hlength)
  have hsupports := hready.supports e (List.mem_cons_self ..)
  have hleaves : h.kind ≠ .child → ∃ v w, p = .leaf v ∧ p' = .leaf w ∧ x = .leaf w ∧ w.IsPlain := by
    intro hkind
    obtain ⟨v, rfl⟩ := hleaf hkind
    obtain ⟨w, rfl⟩ := Plan.eq_leaf_of_like hlike
    cases hfits' with
    | leaf hw => exact ⟨v, w, rfl, rfl, eq_leaf_of_shows hx, hw⟩
  cases hkind : h.kind with
  | child =>
    obtain ⟨b, n, plants, rfl⟩ := hat.child hkind
    obtain ⟨hplaceholder, -, htext, -⟩ := hsupports
    obtain ⟨b', plants', d', hupdate, hexposes, hsteady, hle, hshown', htext'⟩ :=
      update_child hK g hlength hplaceholder htext hshown hx hlike hfits hfits'
    refine ⟨(.child b', .child n plants'), d', ?_, hexposes, hsteady, hle, at_of_child hat, hshown',
      congrArg (fun k => [k]) htext'⟩
    rw [Binding.update, hupdate]
  | attr raw =>
    obtain ⟨n, a, attached, last, m, name, value, tag, children, rfl, hfollow, hname⟩ := hat.attr hkind
    obtain ⟨rfl, -⟩ := hsupports
    obtain ⟨v, w, rfl, rfl, rfl, hw⟩ := hleaves (by simp [hkind])
    obtain ⟨attached', last', value', d', hupdate, hexposes, hsteady, hle, hshown'⟩ :=
      update_attr hK g hlength hshown hw
    refine ⟨(.attr n a attached' last', .attr n name value'), d', hupdate, hexposes, hsteady, hle,
      ⟨_, hfollow, rfl, ?_⟩, hshown', rfl⟩
    rw [hkind]
    exact ⟨_, _, _, rfl, hname⟩
  | text =>
    obtain ⟨n, last, m, content, rfl⟩ := hat.text hkind
    obtain ⟨rfl, hhas, helement⟩ := hsupports
    obtain ⟨v, w, rfl, rfl, rfl, hw⟩ := hleaves (by simp [hkind])
    obtain ⟨last', content', d', hupdate, hexposes, hsteady, hle, hshown'⟩ :=
      update_text hK g hlength hhas helement hshown hw
    obtain ⟨q, hq, hplace, -⟩ := hat
    refine ⟨(.text n last', .text n content'), d', hupdate, hexposes, hsteady, hle,
      ⟨q, hq, hplace, ?_⟩, hshown', rfl⟩
    rw [hkind]
    trivial

end Document.Exposes

end LiveMarkup
