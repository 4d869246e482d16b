import LiveMarkup.Proofs.Document.Growing
import LiveMarkup.Proofs.Rendering.Release
import LiveMarkup.Rendering.Realization
/-!
# New instances in any document

A new instance has a binding for each hole of its template, because the holes lead to nodes of the content
it is made from, and its block is none of those that were made before. Bringing an instance up to date
adds to the document at most. All this holds whatever the document is like.
-/

namespace LiveMarkup

open Markup (Tree)

/-- What a binding may change the text of: the text that it has made, or the element that it fills. -/
def Binding.writes : Binding → List NodeId
  | .child c => [c.text]
  | .text element _ => [element]
  | _ => []

/-- The attribute that a binding has made. -/
def Binding.attributes : Binding → List AttributeId
  | .attr _ a _ _ => [a]
  | _ => []

namespace Document

variable {d d' d'' : Document} {block : Block} {n root : NodeId} {holes : List Hole}

/-- Whether a block is one of those made so far: its node, or its group, has a number in use. -/
def Issued (d : Document) : Block → Prop
  | .single n => d.Has n
  | .group g => g.serial < d.groups

theorem Grows.issued (h : d.Grows d') (hb : d.Issued block) : d'.Issued block := by
  cases block with
  | single n => exact h.has hb
  | group g => exact Nat.lt_of_lt_of_le hb h.groups

/-! ### Bindings -/

/-- A document has grown without a change to rows of children and groups. -/
structure Prepares (d d' : Document) : Prop where
  evolves : d.Evolves d' [] []
  groups : d'.groups = d.groups
  children : ∀ n, d'.children n = d.children n

namespace Prepares

theorem refl (d : Document) : d.Prepares d :=
  ⟨.refl d, rfl, fun _ => rfl⟩

theorem trans (h : d.Prepares d') (h' : d'.Prepares d'') : d.Prepares d'' :=
  ⟨h.evolves.trans h'.evolves, h'.groups.trans h.groups, fun n => (h'.children n).trans (h.children n)⟩

end Prepares

theorem prepares_ofHole (d : Document) (n : NodeId) (kind : HoleKind) :
    d.Prepares (Binding.ofHole d n kind).2 := by
  unfold Binding.ofHole
  split
  · exact ⟨evolves_create .., rfl, fun _ => children_create⟩
  · exact .refl d
  · unfold Binding.ofAttribute
    split
    · exact .refl d
    · split
      · exact .refl d
      · exact .refl d
      · exact ⟨evolves_createAttribute .., rfl, fun _ => rfl⟩

theorem prepares_ofHoles (d : Document) (root : NodeId) (holes : List Hole) :
    d.Prepares (Binding.ofHoles d root holes).2 := by
  induction holes generalizing d with
  | nil => exact .refl d
  | cons hole rest ih =>
    rw [Binding.ofHoles]
    split
    · exact ih d
    · exact (prepares_ofHole d _ hole.kind).trans (ih _)

/-- Whether the paths of some holes lead to nodes below a root. -/
def Leads (d : Document) (root : NodeId) (holes : List Hole) : Prop :=
  ∀ hole ∈ holes, ∃ n, d.descend? root hole.path = some n

theorem Leads.of_prepares (h : d.Leads root holes) (hd : d.Prepares d') : d'.Leads root holes := by
  intro hole hmem
  obtain ⟨n, hn⟩ := h hole hmem
  exact ⟨n, (descend?_congr hd.children root hole.path).trans hn⟩

theorem leads_createFragment (d : Document) {compiled : Compiled} (hc : compiled.Coherent) :
    (d.createFragment compiled.content).2.Leads (d.createFragment compiled.content).1
      compiled.holes := by
  intro hole hmem
  obtain ⟨t, ht, -⟩ := hc.leads hole hmem
  obtain ⟨n, hn, -⟩ := descend?_createFragment d ht
  exact ⟨n, hn⟩

theorem length_ofHoles (h : d.Leads root holes) :
    (Binding.ofHoles d root holes).1.length = holes.length := by
  induction holes generalizing d with
  | nil => rfl
  | cons hole rest ih =>
    obtain ⟨n, hn⟩ := h hole (List.mem_cons_self ..)
    have hrest : d.Leads root rest := fun hole hmem => h hole (List.mem_cons_of_mem _ hmem)
    rw [Binding.ofHoles, hn]
    exact congrArg (· + 1) (ih (hrest.of_prepares (prepares_ofHole d n hole.kind)))

/-! ### Instances -/

theorem evolves_createInstance (d : Document) (space : Markup.Namespace) (template : Template)
    (compiled : Compiled) : d.Evolves (Instance.create d space template compiled).2 [] [] :=
  ((evolves_createFragment ..).trans (prepares_ofHoles ..).evolves).trans (evolves_blockOfOwn ..)

theorem length_bindings_create (d : Document) (space : Markup.Namespace) (template : Template)
    {compiled : Compiled} (hc : compiled.Coherent) :
    (Instance.create d space template compiled).1.bindings.length = compiled.holes.length :=
  length_ofHoles (leads_createFragment d hc)

/-- The block of the children of a fragment is new if the children are. -/
theorem issued_blockOfOwn (h : ∀ n ∈ d'.children root, ¬ d.Has n ∧ d'.Has n)
    (hgroups : d.groups ≤ d'.groups) :
    ¬ d.Issued (d'.blockOfOwn root).1 ∧ (d'.blockOfOwn root).2.Issued (d'.blockOfOwn root).1 := by
  have hgroup : ∀ members, ¬ d.Issued (.group ⟨d'.groups, root, members⟩) ∧
      Issued { d' with groups := d'.groups + 1 } (.group ⟨d'.groups, root, members⟩) :=
    fun members => ⟨Nat.not_lt.2 hgroups, Nat.lt_succ_self _⟩
  match hrow : d'.children root with
  | [only] =>
    obtain ⟨hnew, hhas⟩ := h only (hrow ▸ List.mem_singleton_self only)
    simp only [blockOfOwn, blockOf, hrow]
    exact ⟨hnew, (shifts_detach _ _ []).grows.has hhas⟩
  | [] =>
    simp only [blockOfOwn, blockOf, hrow]
    exact hgroup _
  | _ :: _ :: _ =>
    simp only [blockOfOwn, blockOf, hrow]
    exact hgroup _

/-- The block of a new instance has not been there before. -/
theorem issued_createInstance (d : Document) (space : Markup.Namespace) (template : Template)
    (compiled : Compiled) :
    ¬ d.Issued (Instance.create d space template compiled).1.block ∧
      (Instance.create d space template compiled).2.Issued
        (Instance.create d space template compiled).1.block := by
  obtain ⟨hroot, hrow, hsprouted⟩ := sprouted_createFragment d compiled.content
  have hprepares := prepares_ofHoles (d.createFragment compiled.content).2
    (d.createFragment compiled.content).1 compiled.holes
  have hevolves := (evolves_createFragment d compiled.content).trans hprepares.evolves
  refine issued_blockOfOwn (fun n hn => ?_) hevolves.grows.groups
  rw [hprepares.children, hroot, hrow] at hn
  obtain ⟨q, hq, rfl⟩ := List.mem_map.1 hn
  obtain ⟨hnew, hhas⟩ := hsprouted.ids q.id (Plant.id_mem_idsAll hq)
  exact ⟨fun h => hnew ((grows_create ..).has h), hprepares.evolves.grows.has hhas⟩

/-! ### Updates -/

theorem shifts_showBlocks (b : ChildBinding) (d : Document) (blocks : List Block) :
    d.Shifts (b.showBlocks d blocks).2
      ((d.parent? b.placeholder).toList ++ (b.entries ++ blocks).flatMap Block.fragments) := by
  unfold ChildBinding.showBlocks
  split
  · exact shifts_note ..
  · rename_i p hp
    have hsite : (b.site p).Shifting (· ∈ b.entries ++ blocks)
        ((d.parent? b.placeholder).toList ++ (b.entries ++ blocks).flatMap Block.fragments) :=
      ⟨List.mem_append_left _ (by rw [hp]; exact List.mem_singleton_self p), fun e he access d =>
        shifts_access (fun f hf => List.mem_append_right _ (List.mem_flatMap.2 ⟨e, he, hf⟩)) d access⟩
    exact shifts_reconcile d hsite (fun e he => List.mem_append_left _ he)
      fun e he => List.mem_append_right _ he

section

variable {texts : List NodeId} {attributes : List AttributeId}

theorem evolves_showBlocks (b : ChildBinding) (d : Document) (entries : List Block) :
    d.Evolves (b.showBlocks d entries).2 texts attributes :=
  (shifts_showBlocks b d entries).evolves

theorem evolves_showPrimitive {b : ChildBinding} (hb : b.text ∈ texts) (d : Document) (value : Value) :
    d.Evolves (b.showPrimitive d value).2 texts attributes := by
  unfold ChildBinding.showPrimitive
  split
  · exact .refl d
  · exact (evolves_setText d hb _).trans (evolves_showBlocks ..)

theorem shifts_blocksOfItems (d : Document) (items : List Value) :
    d.Shifts (ChildBinding.blocksOfItems d items).2 [] := by
  fun_induction ChildBinding.blocksOfItems d items with
  | case1 => exact .refl ..
  | case2 _ _ _ _ ih => exact ih
  | case3 _ _ _ _ ih => exact ih
  | case4 d _ _ _ _ ih => exact (shifts_note ..).trans ih

theorem evolves_updateChild {b : ChildBinding} (hb : b.text ∈ texts) (d : Document) (value : Value) :
    d.Evolves (b.update d value).2 texts attributes := by
  unfold ChildBinding.update
  split
  · exact evolves_showBlocks ..
  · exact evolves_showPrimitive hb ..
  · exact evolves_showPrimitive hb ..
  · exact evolves_showPrimitive hb ..
  · exact evolves_showBlocks ..
  · exact evolves_showBlocks ..
  · exact evolves_showBlocks ..
  · split
    · split
      · exact evolves_showPrimitive hb ..
      · exact evolves_note ..
    · exact (shifts_blocksOfItems ..).evolves.trans (evolves_showBlocks ..)
  all_goals exact .refl d

theorem evolves_updateCell (element : NodeId) (d : Document) (value : Value) :
    d.Evolves (Binding.updateCell element d value) texts attributes := by
  unfold Binding.updateCell
  split
  · exact evolves_setCell ..
  · exact .refl d
  · exact evolves_note ..

theorem evolves_exchangeListener (element : NodeId) (type : String) (current next : Option ListenerId)
    (d : Document) : d.Evolves (Binding.exchangeListener element type current next d) texts attributes := by
  cases current with
  | none =>
    cases next with
    | none => exact .refl d
    | some listener => exact evolves_addListener ..
  | some listener =>
    cases next with
    | none => exact evolves_removeListener ..
    | some listener => exact (evolves_removeListener ..).trans (evolves_addListener ..)

/-- Bringing a binding up to date only ever adds to the document, and changes no texts and attributes but
those that the binding is for. -/
theorem evolves_updateBinding {b : Binding} (hwrites : b.writes ⊆ texts)
    (hattributes : b.attributes ⊆ attributes) (d : Document) (value : Value) :
    d.Evolves (b.update d value).2 texts attributes := by
  cases b with
  | child c => exact evolves_updateChild (hwrites (List.mem_singleton_self _)) d value
  | cell element => exact evolves_updateCell ..
  | property element name last =>
    rw [Binding.update]
    split
    · exact .refl d
    · exact evolves_setProperty ..
  | event element type current =>
    rw [Binding.update]
    split
    · exact evolves_note ..
    · split
      · exact .refl d
      · exact evolves_exchangeListener ..
  | attr element a attached last =>
    have ha : a ∈ attributes := hattributes (List.mem_singleton_self _)
    rw [Binding.update]
    split
    · exact .refl d
    · split
      · dsimp only
        split
        · exact evolves_takeAttribute ..
        · exact .refl d
      · split
        · exact evolves_note ..
        · dsimp only
          split
          · exact evolves_setAttributeValue d ha _
          · exact (evolves_setAttributeValue d ha _).trans (evolves_putAttribute ..)
  | text element last =>
    rw [Binding.update]
    split
    · exact .refl d
    · split
      · exact evolves_note ..
      · exact evolves_setText d (hwrites (List.mem_singleton_self _)) _

end

/-! ### Letting go -/

theorem evolves_release (d : Document) (custody : Custody) : d.Evolves (d.release custody) [] [] where
  grows := ⟨Nat.le_of_eq (Array.size_mapIdx ..).symm, Nat.le_of_eq (Array.size_map ..).symm,
    Nat.le_refl _⟩
  notices := List.suffix_refl _
  kind _ _ := kind_keepOnly
  data n hn _ := by
    rw [release_eq, node_keepOnly hn]
    split <;> rfl
  value a _ _ := by rw [release_eq, attr_keepOnly]

end Document

end LiveMarkup
