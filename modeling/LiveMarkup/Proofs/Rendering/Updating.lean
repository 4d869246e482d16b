import LiveMarkup.Proofs.Document.Reconcile
import LiveMarkup.Proofs.Rendering.Filling
/-!
# The first update of a binding

A binding that has shown nothing yet is brought up to date with the value of its hole. What this does
to the document is what the hole should add: blocks are put in front of the placeholder one after
another, a primitive becomes the text of the binding, a value other than null puts the attribute on its
element, and the content of an element becomes a text (`Filling.update`).
-/

namespace LiveMarkup

/-! ### The values of exhibits -/

namespace Value

variable {v : Value} {vs : List Value}

theorem text?_of_isPlain (h : v.IsPlain) : v.text? = some v.written := by
  rcases h with h | h <;> cases v <;> first | rfl | cases h

theorem texts?_of_isPlain (h : ∀ v ∈ vs, v.IsPlain) : texts? vs = some (vs.map written) := by
  induction vs with
  | nil => rfl
  | cons v vs ih =>
    rw [texts?, text?_of_isPlain (h v (List.mem_cons_self ..)),
      ih fun v hv => h v (List.mem_cons_of_mem _ hv)]
    rfl

end Value

namespace Exhibit

variable {x : Exhibit} {xs : List Exhibit} {p : Plan} {ps : List Plan}

theorem plants_eq_pieces :
    (∀ x : Exhibit, x.plants = x.pieces.flatMap Prod.snd) ∧
      ∀ xs : List Exhibit, (plantsAll xs).flatten = (piecesAll xs).flatMap Prod.snd := by
  refine induct ?_ ?_ ?_ ?_ ?_
  · intro v
    rw [plants, pieces, List.flatMap_nil]
  · intro i roots spots holes _
    rw [plants, pieces, List.flatMap_singleton]
  · intro items ih
    rw [plants, pieces, ih]
  · rw [plantsAll, piecesAll, List.flatten_nil, List.flatMap_nil]
  · intro x xs ihx ihxs
    rw [plantsAll, piecesAll, List.flatten_cons, List.flatMap_append, ihx, ihxs]

/-- Exhibits for plain values are these values. -/
theorem eq_leaves_of_shows {vs : List Value} (h : ShowsAll xs (vs.map .leaf)) :
    results xs = vs ∧ piecesAll xs = [] := by
  induction vs generalizing xs with
  | nil =>
    cases xs with
    | nil => exact ⟨rfl, rfl⟩
    | cons x xs => exact False.elim h
  | cons v vs ih =>
    cases xs with
    | nil => exact False.elim h
    | cons x xs =>
      obtain ⟨hresults, hpieces⟩ := ih h.2
      rw [results, piecesAll, eq_leaf_of_shows h.1, result, pieces, hresults, hpieces]
      exact ⟨rfl, rfl⟩

/-- An exhibit for a primitive has no pieces of its own. -/
theorem pieces_of_primitive {v : Value} (hx : x.Shows p) (hf : p.Fits) (hp : p.primitive? = some v) :
    x.pieces = [] := by
  cases hf with
  | leaf h => rw [eq_leaf_of_shows hx, pieces]
  | use => cases hp
  | list _ huses =>
    rename_i items _
    cases items with
    | nil => cases hp
    | cons p ps =>
      obtain ⟨space, template, compiled, holes, rfl⟩ := huses p (List.mem_cons_self ..)
      cases hp
  | @texts v rest hv h =>
    cases x with
    | leaf w => exact False.elim hx
    | use i roots spots xs => exact False.elim hx
    | list xs =>
      rw [pieces]
      exact (@eq_leaves_of_shows _ (v :: rest) hx).2

/-- The items of a list of uses are blocks. -/
theorem blocksOfItems_results (d : Document) (hx : ShowsAll xs ps)
    (huses : ∀ p ∈ ps, ∃ space template compiled holes, p = .use space template compiled holes) :
    ChildBinding.blocksOfItems d (results xs) = ((piecesAll xs).map Prod.fst, d) := by
  induction xs generalizing ps with
  | nil => rfl
  | cons x xs ih =>
    cases ps with
    | nil => exact False.elim hx
    | cons p ps =>
      obtain ⟨space, template, compiled, holes, rfl⟩ := huses p (List.mem_cons_self ..)
      cases x with
      | leaf w => exact False.elim hx.1
      | list items => exact False.elim hx.1
      | use i roots spots holes =>
        rw [results, result, piecesAll, pieces, ChildBinding.blocksOfItems,
          ih hx.2 fun p hp => huses p (List.mem_cons_of_mem _ hp)]
        rfl

end Exhibit

/-! ### Showing blocks for the first time -/

namespace ChildBinding

variable {c : ChildBinding} {d : Document} {p : NodeId}

theorem document_insertAll (c : ChildBinding) (p : NodeId) (s : Pass Block) (blocks : List Block)
    (reference : Option NodeId) : (s.insertAll (c.site p) blocks reference).document
      = blocks.foldl (fun d block => d.insertBlock p block reference) s.document := by
  induction blocks generalizing s with
  | nil => rfl
  | cons block rest ih => exact ih (s.insert (c.site p) block reference)

/-- Where nothing has been shown, blocks are put in front of the placeholder one after another. -/
theorem showBlocks_of_entries (hp : d.parent? c.placeholder = some p) (hc : c.entries = [])
    (blocks : List Block) : c.showBlocks d blocks = ({ c with entries := blocks },
      blocks.foldl (fun d block => d.insertBlock p block (some c.placeholder)) d) := by
  have hresult : (d.reconcile (c.site p) [] blocks).result = blocks := by
    rw [Document.reconcile, Pass.result_run]
    simp [Pass.target, Pass.start]
  have hdocument : (d.reconcile (c.site p) [] blocks).document
      = blocks.foldl (fun d block => d.insertBlock p block (some c.placeholder)) d := by
    rw [Document.reconcile]
    cases blocks with
    | nil =>
      rw [Pass.run_of_new _ _ rfl]
      rfl
    | cons block rest =>
      have hstep : (Pass.start d [] (block :: rest)).run (c.site p)
          = ((Pass.start d [] (block :: rest)).step (c.site p)).run (c.site p) := by
        rw [Pass.run, dif_neg]
        exact Pass.not_isDone_of_new rfl
      have hplace : (Pass.start d [] (block :: rest)).step (c.site p)
          = (Pass.start d [] (block :: rest)).placeRest (c.site p) := rfl
      rw [hstep, hplace, Pass.run_of_new _ _ rfl]
      have hold : ((Pass.start d [] (block :: rest)).placeRest (c.site p)).old = [] :=
        Pass.old_insertAll ..
      rw [Pass.removeRest, hold, List.foldl_nil]
      exact document_insertAll c p _ _ _
  rw [showBlocks, hp, hc]
  dsimp only
  rw [hresult, hdocument]

theorem setText_of_kind {d : Document} {n : NodeId} (h : d.kind n = .text) (text : String) :
    d.setText n text = d.setData n text := by
  rw [Document.setText, Document.leaf?, h]

/-- A primitive becomes the text of the binding, which is put in front of the placeholder. -/
theorem showPrimitive_of_shown (hp : d.parent? c.placeholder = some p) (hc : c.entries = [])
    (hshown : c.shown = none) (hkind : d.kind c.text = .text) (v : Value) :
    c.showPrimitive d v = ({ c with shown := some v, entries := [.single c.text] },
      (d.setData c.text v.written).insertBlock p (.single c.text) (some c.placeholder)) := by
  rw [showPrimitive, hshown, setText_of_kind hkind]
  exact showBlocks_of_entries (c := { c with shown := some v }) (Document.parent?_setData.trans hp) hc
    [.single c.text]

/-- What a child binding does with the value of its hole: it shows a primitive or some blocks. -/
theorem update_result (c : ChildBinding) (d : Document) {x : Exhibit} {plan : Plan} (hx : x.Shows plan)
    (hf : plan.Fits) :
    c.update d x.result = match plan.primitive? with
      | some v => c.showPrimitive d v
      | none => { c with shown := none }.showBlocks d x.blocks := by
  cases hf with
  | @leaf v h =>
    rw [Exhibit.eq_leaf_of_shows hx]
    cases v with
    | null | bool | number | string => rfl
    | node | block | list | invocation | listener | cell | object =>
      rcases h with h | h <;> cases h
  | use =>
    cases x with
    | leaf w => exact False.elim hx
    | list items => exact False.elim hx
    | use i roots spots holes => rfl
  | @list items _ huses =>
    cases x with
    | leaf w => exact False.elim hx
    | use i roots spots xs => exact False.elim hx
    | list xs =>
      have hblocks := Exhibit.blocksOfItems_results d hx huses
      have hplan : (Plan.list items).primitive? = none := by
        cases items with
        | nil => rfl
        | cons p ps =>
          obtain ⟨space, template, compiled, holes, rfl⟩ := huses p (List.mem_cons_self ..)
          rfl
      rw [hplan, Exhibit.result, Exhibit.blocks, Exhibit.pieces]
      cases xs with
      | nil => rfl
      | cons x xs =>
        cases items with
        | nil => exact False.elim hx
        | cons p ps =>
          obtain ⟨space, template, compiled, holes, rfl⟩ := huses p (List.mem_cons_self ..)
          cases x with
          | leaf w => exact False.elim hx.1
          | list items => exact False.elim hx.1
          | use i roots spots holes =>
            show { c with shown := none }.showBlocks
              (blocksOfItems d (Exhibit.results (.use i roots spots holes :: xs))).2
              (blocksOfItems d (Exhibit.results (.use i roots spots holes :: xs))).1 = _
            rw [hblocks]
  | @texts v rest hv h =>
    cases x with
    | leaf w => exact False.elim hx
    | use i roots spots xs => exact False.elim hx
    | list xs =>
      have htexts := Value.texts?_of_isPlain (List.forall_mem_cons.2 ⟨.inr hv, h⟩)
      have htext : (Value.list (v :: rest)).text?
          = some (String.intercalate "," ((v :: rest).map Value.written)) := by
        rw [Value.text?, htexts]
        rfl
      have hjoined : ((v :: rest).map Plan.leaf).map (fun p => p.value.written)
          = (v :: rest).map Value.written := by
        rw [List.map_map]
        rfl
      rw [Exhibit.result, (@Exhibit.eq_leaves_of_shows _ (v :: rest) hx).1]
      have hplan : (Plan.list ((v :: rest).map .leaf)).primitive?
          = some (.string (String.intercalate "," ((v :: rest).map Value.written))) := by
        rw [← hjoined]
        rfl
      rw [hplan, update, if_pos hv, htext]

/-- What a child binding that has shown nothing does with the value of its hole. -/
theorem update_of_unused {x : Exhibit} {plan : Plan} (hx : x.Shows plan) (hf : plan.Fits)
    (hp : d.parent? c.placeholder = some p) (hc : c.entries = []) (hshown : c.shown = none)
    (hkind : d.kind c.text = .text) :
    c.update d x.result = match plan.primitive? with
      | some v => ({ c with shown := some v, entries := [.single c.text] },
          (d.setData c.text v.written).insertBlock p (.single c.text) (some c.placeholder))
      | none => ({ c with entries := x.blocks },
          x.blocks.foldl (fun d block => d.insertBlock p block (some c.placeholder)) d) := by
  have hsame : { c with shown := none } = c := by rw [← hshown]
  rw [update_result c d hx hf, hsame]
  cases plan.primitive? with
  | some v => exact showPrimitive_of_shown hp hc hshown hkind v
  | none => exact showBlocks_of_entries hp hc x.blocks

end ChildBinding

/-! ### Filling a hole -/

/-- The content that an element gets is new. -/
theorem Document.novel_content {d d' : Document} {n : NodeId} {content : List Plant}
    (hr : Rewritten d d' n content) (hnd : (Plant.idsAll content).Nodup) :
    d.Novel d' (Plant.idsAll content) :=
  ⟨hr.nodes, hnd, fun m hm => ⟨hr.fresh m hm, by
    obtain ⟨q, hq, hm⟩ := Plant.mem_idsAll.1 hm
    exact (hr.stand q hq).has_of_mem hm⟩⟩

namespace Document.Filling

variable {start d : Document} {root : Option NodeId} {roots : List Plant}
  {t : Trimming NodeId Plant} {pieces : List (Block × List Plant)} {h : Hole} {e : Binding × Spot}
  {entries : List (Binding × Spot)} {n m : NodeId} {x : Exhibit} {plan : Plan}

/-- A child hole is filled. -/
theorem child {c : ChildBinding}
    (F : Filling start d root roots t (x.pieces ++ pieces) ((.child c, .child n []) :: entries))
    (hn : n ∈ Plant.idsAll roots)
    (hvisible : ∀ t' : Trimming NodeId Plant, t'.content = t.content →
      n ∈ Plant.idsAll (Plant.graftAll t'.put roots))
    (htop : root = none → n ∉ roots.map Plant.id) (hc : c.entries = []) (hshown : c.shown = none)
    (hx : x.Shows plan) (hf : plan.Fits) (hnew : ¬ start.Has c.text)
    (hown : c.text ∉ Plant.idsAll roots) :
    ∃ c' plants d', c.update d x.result = (c', d') ∧
      Filling start d' root roots (t.join ((Spot.child n plants).trimmingWith x.plants)) pieces
        ((.child c', .child n plants) :: entries) ∧
      Spares start d d' ∧ Shown (.child c', .child n plants) x.blocks plan ∧ c'.text = c.text ∧
      d.Gentle d' ∧ d'.Vacated (Binding.child c').placed := by
  obtain ⟨rfl, hhas, hkind, hnone⟩ := F.ready.supports _ (List.mem_cons_self ..)
  obtain ⟨p, hp⟩ := F.parent (hvisible t rfl) htop
  have hupdate := ChildBinding.update_of_unused hx hf hp hc hshown hkind
  cases hplan : plan.primitive? with
  | none =>
    rw [hplan] at hupdate
    obtain ⟨F', hspares, hgentle, hvacated⟩ := F.insertAll hn hvisible hp
    rw [← Exhibit.plants_eq_pieces.1 x] at F'
    refine ⟨_, [], _, hupdate, ?_, hspares, ?_⟩
    · rw [Spot.trimmingWith, Spot.trimming, Trimming.leading_nil, Trimming.none_join]
      refine { F' with ready := F'.ready.replace ?_ (fun e'' he => ?_) fun c' m he => ?_ }
      · have hs := F'.ready.supports _ (List.mem_cons_self ..)
        exact hs
      · obtain ⟨b, s⟩ := e''
        cases b <;> exact he
      · cases he
        exact ⟨c, _, rfl, rfl⟩
    · rw [Shown, hplan, hshown]
      exact ⟨⟨.none, rfl, rfl⟩, rfl, hgentle, hvacated⟩
  | some v =>
    rw [hplan] at hupdate
    have hpieces := Exhibit.pieces_of_primitive hx hf hplan
    have hplants : x.plants = [] := by
      rw [Exhibit.plants_eq_pieces.1, hpieces, List.flatMap_nil]
    rw [hpieces, List.nil_append] at F
    obtain ⟨F', hspares⟩ := F.reveal { c with shown := some v, entries := [.single c.text] }
      rfl rfl hnew hown v.written
    have hp' : (d.setData c.text v.written).parent? c.placeholder = some p :=
      Document.parent?_setData.trans hp
    obtain ⟨F'', hspares', -, hgentle, -⟩ := F'.insert hn (hvisible t rfl) hp'
    refine ⟨_, [.text c.text v.written], _, hupdate, ?_, hspares.trans hspares', ?_⟩
    · rw [hplants, Spot.trimmingWith, Trimming.leading_nil, Trimming.join_none]
      exact F''
    · rw [Shown, hplan]
      exact ⟨⟨.some (.inl rfl), rfl, rfl⟩, rfl, (gentle_setData d c.text v.written).trans hgentle, .nil⟩

/-- An attribute hole is filled. -/
theorem attr {a : AttributeId} {name : String} {v : Value}
    (F : Filling start d root roots t pieces ((.attr n a false none, .attr m name none) :: entries))
    (hn : n ∈ Plant.idsAll roots) (ha : ¬ start.HasAttribute a) (hv : v.IsPlain) :
    ∃ value d', (Binding.attr n a false none).update d v
        = (.attr n a (!v.isNull) (some v), d') ∧
      Filling start d' root roots (t.join (Spot.attr m name value).trimming) pieces
        ((.attr n a (!v.isNull) (some v), .attr m name value) :: entries) ∧
      Spares start d d' ∧ Shown (.attr n a (!v.isNull) (some v), .attr m name value) [] (.leaf v) ∧
      d.Gentle d' := by
  obtain ⟨rfl, -⟩ := F.ready.supports _ (List.mem_cons_self ..)
  cases hnull : v.isNull with
  | true =>
    refine ⟨none, d, ?_, ?_, .refl start d, ⟨.some (.inl rfl), ?_, ?_⟩, .refl d⟩
    · rw [Binding.update, if_neg (by simp), if_pos hnull]
      rfl
    · rw [Spot.trimming, Option.toList_none, List.map_nil, Trimming.adorning_nil, Trimming.join_none]
      refine { F with ready := F.ready.replace ?_ (fun e'' he => ?_) fun c' k he => ?_ }
      · have hs := F.ready.supports _ (List.mem_cons_self ..)
        exact hs
      · obtain ⟨b, s⟩ := e''
        cases b <;> cases s <;> exact he
      · cases he
    · rw [Plan.value, hnull]
    · rw [Plan.value, if_pos hnull]
  | false =>
    obtain ⟨F', hspares, hgentle⟩ := F.adorn true (some v) hn ha v.written
    refine ⟨some v.written, _, ?_, F', hspares, ⟨.some (.inl rfl), ?_, ?_⟩, hgentle⟩
    · rw [Binding.update, if_neg (by simp), hnull, if_neg Bool.false_ne_true,
        Value.text?_of_isPlain hv]
      rfl
    · rw [Plan.value, hnull]
    · rw [Plan.value, hnull]
      rfl

/-- A text hole is filled. -/
theorem text {v : Value}
    (F : Filling start d root roots t pieces ((.text n none, .text m none) :: entries))
    (hn : n ∈ Plant.idsAll roots) (hcontent : t.content m = none) (hv : v.IsPlain) :
    ∃ content d', (Binding.text n none).update d v = (.text n (some v), d') ∧
      Filling start d' root roots (t.join (Spot.text m content).trimming) pieces
        ((.text n (some v), .text m content) :: entries) ∧
      Spares start d d' ∧ Shown (.text n (some v), .text m content) [] (.leaf v) ∧
      d.Novel d' (Plant.idsAll (Spot.text m content).content) ∧ d.Gentle d' := by
  obtain ⟨rfl, hhas, helement⟩ := F.ready.supports _ (List.mem_cons_self ..)
  have hr := Document.rewritten_setText F.ready.sound hhas helement v.written
  have htrees : Plant.trees (if v.written.isEmpty then [] else [.text d.next v.written])
      = if v.written.isEmpty then [] else [.text v.written] := by
    split <;> simp [Plant.tree]
  have hnd : (Plant.idsAll (if v.written.isEmpty then [] else [.text d.next v.written])).Nodup := by
    split <;> simp [Plant.ids]
  generalize (if v.written.isEmpty then [] else [Plant.text d.next v.written]) = new at *
  obtain ⟨F', hspares⟩ := F.fill (some v) (some new) hn hr hcontent
  refine ⟨some new, _, ?_, F', hspares, ⟨.some (.inl rfl), new, rfl, htrees⟩,
    Document.novel_content hr hnd, hr.gentle (isFragment_of_isElement helement)⟩
  rw [Binding.update, if_neg (by simp), Value.text?_of_isPlain hv]

/-- A hole is filled. -/
theorem update (F : Filling start d root roots t (x.pieces ++ pieces) (e :: entries))
    (hat : h.At roots e) (hunused : Unused e) (hx : x.Shows plan) (hf : plan.Fits)
    (hleaf : h.kind ≠ .child → ∃ v, plan = .leaf v)
    (hvisible : h.kind = .child → ∀ t' : Trimming NodeId Plant, t'.content = t.content →
      e.2.place ∈ Plant.idsAll (Plant.graftAll t'.put roots))
    (htop : h.kind = .child → root = none → e.2.place ∉ roots.map Plant.id)
    (hcontent : h.kind = .text → t.content e.2.place = none) (hnew : e.1.IsNew start)
    (hown : ∀ c, e.1 = .child c → c.text ∉ Plant.idsAll roots) :
    ∃ e' d', e.1.update d x.result = (e'.1, d') ∧
      Filling start d' root roots (t.join (e'.2.trimmingWith x.plants)) pieces (e' :: entries) ∧
      Spares start d d' ∧ h.At roots e' ∧ Shown e' x.blocks plan ∧ e'.1.IsNew start ∧
      e'.1.texts = e.1.texts ∧ d.Novel d' (Plant.idsAll e'.2.content) ∧ d.Gentle d' ∧
      d'.Vacated e'.1.placed := by
  obtain ⟨q, hq, hplace, hkind⟩ := hat
  have hn : e.2.place ∈ Plant.idsAll roots := hplace ▸ Plant.id_mem_of_follow hq
  have hplain : h.kind ≠ .child → ∃ v, x = .leaf v ∧ plan = .leaf v ∧ v.IsPlain := by
    intro hne
    obtain ⟨v, rfl⟩ := hleaf hne
    cases hf with
    | leaf hv => exact ⟨v, Exhibit.eq_leaf_of_shows hx, rfl, hv⟩
  obtain ⟨b, s⟩ := e
  obtain ⟨kind, path⟩ := h
  cases kind with
  | child =>
    cases b <;> cases s <;> try exact False.elim hkind
    case child.child c n plants =>
      obtain ⟨hshown, hc, rfl⟩ := hunused
      obtain ⟨c', plants, d', hupdate, F', hspares, hshown', htext, hgentle, hvacated⟩ := F.child hn
        (hvisible rfl) (htop rfl) hc hshown hx hf hnew (hown c rfl)
      refine ⟨(.child c', .child n plants), d', ?_, F', hspares, ⟨q, hq, hplace, trivial⟩, hshown', ?_,
        congrArg (fun n => [n]) htext, .nil hspares.nodes_le, hgentle, hvacated⟩
      · rw [Binding.update, hupdate]
      · exact fun hc => hnew (htext ▸ hc)
  | attr raw =>
    obtain ⟨v, rfl, rfl, hv⟩ := hplain (by simp)
    cases b <;> cases s <;> try exact False.elim hkind
    case attr.attr n a attached last m name value =>
      obtain ⟨rfl, rfl, rfl⟩ := hunused
      obtain ⟨rfl, -⟩ := F.ready.supports _ (List.mem_cons_self ..)
      obtain ⟨value, d', hupdate, F', hspares, hshown, hgentle⟩ := F.attr hn hnew hv
      refine ⟨(.attr n a (!v.isNull) (some v), .attr n name value), d', hupdate, ?_, hspares,
        ⟨q, hq, hplace, hkind⟩, hshown, hnew, rfl, .nil hspares.nodes_le, hgentle, .nil⟩
      rw [Spot.trimmingWith, Exhibit.plants, Trimming.leading_nil, Trimming.join_none]
      exact F'
  | text =>
    obtain ⟨v, rfl, rfl, hv⟩ := hplain (by simp)
    cases b <;> cases s <;> try exact False.elim hkind
    case text.text n last m content =>
      obtain ⟨rfl, rfl⟩ := hunused
      obtain ⟨rfl, -⟩ := F.ready.supports _ (List.mem_cons_self ..)
      obtain ⟨content, d', hupdate, F', hspares, hshown, hnovel, hgentle⟩ := F.text hn (hcontent rfl) hv
      refine ⟨(.text n (some v), .text n content), d', hupdate, ?_, hspares, ⟨q, hq, hplace, trivial⟩,
        hshown, trivial, rfl, hnovel, hgentle, .nil⟩
      rw [Spot.trimmingWith, Exhibit.plants, Trimming.leading_nil, Trimming.join_none]
      exact F'

end Document.Filling

end LiveMarkup
