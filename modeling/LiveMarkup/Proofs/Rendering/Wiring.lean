import LiveMarkup.Proofs.Rendering.Exhibit
import LiveMarkup.Proofs.Rendering.Origin
/-!
# Bindings that keep out of each other's way

Each child hole of an instance has a text of its own and each attribute hole an attribute of its own, made
with the instance. No other binding of the instance changes them (`Binding.Wired`), and this stays so while
the bindings are brought up to date, because a binding never leaves its place (`Binding.site_update`).
-/

namespace LiveMarkup

namespace Binding

variable {d d' : Document} {b b' : Binding} {bs bs' : List Binding} {holes : List Hole}

/-- A binding with nothing shown: the place that it is for, and what it has made. -/
def site : Binding → Binding
  | .child c => .child ⟨c.placeholder, c.text, none, []⟩
  | .cell element => .cell element
  | .property element name _ => .property element name none
  | .event element type _ => .event element type none
  | .attr element a _ _ => .attr element a false none
  | .text element _ => .text element none

/-- Whether a binding fills an element with text. -/
def IsText : Binding → Prop
  | .text .. => True
  | _ => False

theorem site_showBlocks (c : ChildBinding) (d : Document) (entries : List Block) :
    (child (c.showBlocks d entries).1).site = (child c).site := by
  unfold ChildBinding.showBlocks
  split <;> rfl

theorem site_showPrimitive (c : ChildBinding) (d : Document) (value : Value) :
    (child (c.showPrimitive d value).1).site = (child c).site := by
  unfold ChildBinding.showPrimitive
  split
  · rfl
  · exact site_showBlocks ..

theorem site_updateChild (c : ChildBinding) (d : Document) (value : Value) :
    (child (c.update d value).1).site = (child c).site := by
  unfold ChildBinding.update
  split
  · exact site_showBlocks ..
  · exact site_showPrimitive ..
  · exact site_showPrimitive ..
  · exact site_showPrimitive ..
  · exact site_showBlocks ..
  · exact site_showBlocks ..
  · exact site_showBlocks ..
  · split
    · split
      · exact site_showPrimitive ..
      · rfl
    · exact site_showBlocks ..
  all_goals rfl

/-- A binding stays where it is. -/
theorem site_update (b : Binding) (d : Document) (value : Value) :
    (b.update d value).1.site = b.site := by
  cases b with
  | child c => exact site_updateChild c d value
  | cell element => rfl
  | property element name last =>
    rw [update]
    split <;> rfl
  | event element type current =>
    rw [update]
    split
    · rfl
    · split <;> rfl
  | attr element a attached last =>
    rw [update]
    split
    · rfl
    · split
      · rfl
      · split <;> rfl
  | text element last =>
    rw [update]
    split
    · rfl
    · split <;> rfl

@[simp] theorem texts_site (b : Binding) : b.site.texts = b.texts := by
  cases b <;> rfl

@[simp] theorem writes_site (b : Binding) : b.site.writes = b.writes := by
  cases b <;> rfl

@[simp] theorem attributes_site (b : Binding) : b.site.attributes = b.attributes := by
  cases b <;> rfl

@[simp] theorem isText_site (b : Binding) : b.site.IsText ↔ b.IsText := by
  cases b <;> rfl

/-- Neither of two bindings changes what the other one has made. -/
structure Apart (b b' : Binding) : Prop where
  right : ∀ n ∈ b.texts, n ∉ b'.writes
  left : ∀ n ∈ b'.texts, n ∉ b.writes
  attributes : ∀ a ∈ b.attributes, a ∉ b'.attributes

theorem apart_site : b.site.Apart b'.site ↔ b.Apart b' :=
  ⟨fun ⟨h₁, h₂, h₃⟩ => ⟨by simpa using h₁, by simpa using h₂, by simpa using h₃⟩,
    fun ⟨h₁, h₂, h₃⟩ => ⟨by simpa using h₁, by simpa using h₂, by simpa using h₃⟩⟩

/-- The bindings of some holes have what they need, each for itself. -/
structure Wired (d : Document) (holes : List Hole) (bs : List Binding) : Prop where
  apart : bs.Pairwise Apart
  has_text : ∀ b ∈ bs, ∀ n ∈ b.texts, d.Has n
  has_attribute : ∀ b ∈ bs, ∀ a ∈ b.attributes, d.HasAttribute a
  text : List.Forall₂ (fun h b => b.IsText → h.kind = .text) holes bs

namespace Wired

theorem grows (h : Wired d holes bs) (hd : d.Grows d') : Wired d' holes bs :=
  ⟨h.apart, fun b hb n hn => hd.has (h.has_text b hb n hn),
    fun b hb a ha => hd.hasAttribute (h.has_attribute b hb a ha), h.text⟩

theorem map_site : Wired d holes (bs.map site) ↔ Wired d holes bs := by
  constructor
  · rintro ⟨h₁, h₂, h₃, h₄⟩
    refine ⟨(List.pairwise_map.1 h₁).imp apart_site.1, ?_, ?_, ?_⟩
    · simpa using h₂
    · simpa using h₃
    · simpa using h₄
  · rintro ⟨h₁, h₂, h₃, h₄⟩
    refine ⟨List.pairwise_map.2 (h₁.imp apart_site.2), ?_, ?_, ?_⟩
    · simpa using h₂
    · simpa using h₃
    · simpa using h₄

/-- What is shown does not matter. -/
theorem of_sites (h : Wired d holes bs) (hs : bs'.map site = bs.map site) : Wired d holes bs' :=
  map_site.1 (hs ▸ map_site.2 h)

end Wired

theorem IsNew.not_mem_texts (h : b.IsNew d) {n : NodeId} (hn : d.Has n) : n ∉ b.texts := by
  cases b with
  | child c => exact fun hmem => h (List.mem_singleton.1 hmem ▸ hn)
  | _ => exact List.not_mem_nil

theorem IsNew.not_mem_attributes (h : b.IsNew d) {a : AttributeId} (ha : d.HasAttribute a) :
    a ∉ b.attributes := by
  cases b with
  | attr element a' attached last => exact fun hmem => h (List.mem_singleton.1 hmem ▸ ha)
  | _ => exact List.not_mem_nil

theorem IsNew.of_grows (h : b.IsNew d') (hd : d.Grows d') : b.IsNew d := by
  cases b with
  | child c => exact fun hn => h (hd.has hn)
  | attr element a attached last => exact fun ha => h (hd.hasAttribute ha)
  | _ => trivial

end Binding

theorem Level.sites_fill (level : Level) (custody : Custody) (bindings : List Binding)
    (values : List Value) :
    (level.fill custody bindings values).1.map Binding.site = bindings.map Binding.site := by
  fun_induction fill level custody bindings values with
  | case1 level custody b bindings value values updated level' others ih =>
    exact congrArg₂ List.cons (Binding.site_update b level.document value) ih
  | case2 => rfl

/-! ### New bindings -/

namespace Document

open Binding

variable {d d' d'' base : Document} {root n : NodeId} {holes : List Hole}

/-- What a binding has been made with: nodes that were there before, and a new text or attribute. -/
structure Outfits (base d d' : Document) (b : Binding) : Prop where
  new : b.IsNew d
  has_text : ∀ n ∈ b.texts, d'.Has n ∧ d'.kind n = .text
  has_attribute : ∀ a ∈ b.attributes, d'.HasAttribute a
  writes : ∀ n ∈ b.writes, n ∈ b.texts ∨ base.Has n

theorem Outfits.evolves {b : Binding} (h : Outfits base d d' b)
    (hd : d'.Evolves d'' [] []) : Outfits base d d'' b where
  new := h.new
  has_text n hn := ⟨hd.grows.has (h.has_text n hn).1, (hd.kind n (h.has_text n hn).1).trans (h.has_text n hn).2⟩
  has_attribute a ha := hd.grows.hasAttribute (h.has_attribute a ha)
  writes := h.writes

theorem outfits_ofHole (hn : base.Has n) (kind : HoleKind) :
    Outfits base d (Binding.ofHole d n kind).2 (Binding.ofHole d n kind).1 ∧
      ((Binding.ofHole d n kind).1.IsText → kind = .text) := by
  cases kind with
  | child =>
    refine ⟨⟨not_has_next, fun m hm => ?_, fun _ h => (List.not_mem_nil h).elim, fun m hm => .inl hm⟩,
      False.elim⟩
    obtain rfl := List.mem_singleton.1 hm
    exact ⟨(Nat.lt_succ_self _).trans_eq (budded_create d .text "").nodes.symm, kind_create_next⟩
  | text =>
    refine ⟨⟨trivial, fun _ h => (List.not_mem_nil h).elim, fun _ h => (List.not_mem_nil h).elim,
      fun m hm => .inr ?_⟩, fun _ => rfl⟩
    exact List.mem_singleton.1 hm ▸ hn
  | attr name =>
    have hbare : ∀ b : Binding, b.IsNew d → b.texts = [] → b.attributes = [] → b.writes = [] →
        Outfits base d d b := fun b hnew ht ha hw =>
      ⟨hnew, fun _ h => by simp [ht] at h, fun _ h => by simp [ha] at h, fun _ h => by simp [hw] at h⟩
    unfold Binding.ofHole Binding.ofAttribute
    dsimp only
    split
    · exact ⟨hbare _ trivial rfl rfl rfl, False.elim⟩
    · split
      · exact ⟨hbare _ trivial rfl rfl rfl, False.elim⟩
      · exact ⟨hbare _ trivial rfl rfl rfl, False.elim⟩
      · refine ⟨⟨not_hasAttribute_next, fun _ h => (List.not_mem_nil h).elim, fun a ha => ?_,
          fun _ h => (List.not_mem_nil h).elim⟩, False.elim⟩
        obtain rfl := List.mem_singleton.1 ha
        exact Nat.lt_of_lt_of_eq (Nat.lt_succ_self _) (Array.size_push _).symm

/-- A binding has nothing to do with one that is made after it. -/
theorem Outfits.apart {b b' : Binding} (h : Outfits base d d' b)
    (h' : Outfits base d' d'' b') (hbase : base.Grows d) (hd : d.Grows d') : b.Apart b' where
  right n hn hw := by
    rcases h'.writes n hw with ht | hb
    · exact IsNew.not_mem_texts h'.new (h.has_text n hn).1 ht
    · exact IsNew.not_mem_texts h.new (hbase.has hb) hn
  left n hn hw := by
    refine IsNew.not_mem_texts h'.new ?_ hn
    rcases h.writes n hw with ht | hb
    · exact (h.has_text n ht).1
    · exact hd.has (hbase.has hb)
  attributes a ha := IsNew.not_mem_attributes h'.new (h.has_attribute a ha)

/-- The bindings of holes that lead to nodes are apart from each other. -/
theorem wired_ofHoles
    (hholes : ∀ hole ∈ holes, ∃ n, base.descend? root hole.path = some n ∧ base.Has n)
    (hd : base.Prepares d) :
    Wired (Binding.ofHoles d root holes).2 holes (Binding.ofHoles d root holes).1 ∧
      ∀ b ∈ (Binding.ofHoles d root holes).1, Outfits base d (Binding.ofHoles d root holes).2 b := by
  induction holes generalizing d with
  | nil => exact ⟨⟨.nil, fun _ h => (List.not_mem_nil h).elim, fun _ h => (List.not_mem_nil h).elim, .nil⟩,
      fun _ h => (List.not_mem_nil h).elim⟩
  | cons hole rest ih =>
    obtain ⟨⟨n, hpath, hn⟩, hrest⟩ := List.forall_mem_cons.1 hholes
    have hprepares := prepares_ofHole d n hole.kind
    obtain ⟨hfirst, htext⟩ := outfits_ofHole (d := d) hn hole.kind
    rw [Binding.ofHoles, (descend?_congr hd.children root hole.path).trans hpath]
    dsimp only
    generalize Binding.ofHole d n hole.kind = first at hprepares hfirst htext ⊢
    obtain ⟨hwired, hothers⟩ := ih hrest (hd.trans hprepares)
    have hlast := prepares_ofHoles first.2 root rest
    generalize Binding.ofHoles first.2 root rest = others at hwired hothers hlast ⊢
    have hfirst' := hfirst.evolves hlast.evolves
    refine ⟨⟨?_, ?_, ?_, .cons htext hwired.text⟩, ?_⟩
    · refine List.pairwise_cons.2 ⟨fun b hb => ?_, hwired.apart⟩
      exact hfirst.apart (hothers b hb) hd.evolves.grows hprepares.evolves.grows
    · exact List.forall_mem_cons.2 ⟨fun m hm => (hfirst'.has_text m hm).1, hwired.has_text⟩
    · exact List.forall_mem_cons.2 ⟨hfirst'.has_attribute, hwired.has_attribute⟩
    · refine List.forall_mem_cons.2 ⟨hfirst', fun b hb => ?_⟩
      exact { hothers b hb with new := (hothers b hb).new.of_grows hprepares.evolves.grows }

theorem wired_createInstance (d : Document) (space : Markup.Namespace) (template : Template)
    {compiled : Compiled} (hc : compiled.Coherent) :
    let made := Instance.create d space template compiled
    Wired made.2 compiled.holes made.1.bindings ∧
      ∀ b ∈ made.1.bindings, ∀ n ∈ b.texts, made.2.kind n = .text := by
  intro made
  have hholes : ∀ hole ∈ compiled.holes, ∃ n, (d.createFragment compiled.content).2.descend?
      (d.createFragment compiled.content).1 hole.path = some n ∧
      (d.createFragment compiled.content).2.Has n := by
    intro hole hmem
    obtain ⟨t, ht, -⟩ := hc.leads hole hmem
    exact descend?_createFragment d ht
  obtain ⟨hwired, houtfits⟩ := wired_ofHoles hholes (.refl _)
  have hblock : Evolves (Binding.ofHoles (d.createFragment compiled.content).2
      (d.createFragment compiled.content).1 compiled.holes).2 made.2 [] [] := evolves_blockOfOwn ..
  exact ⟨hwired.grows hblock.grows, fun b hb n hn =>
    (((houtfits b hb).evolves hblock).has_text n hn).2⟩

end Document

end LiveMarkup
