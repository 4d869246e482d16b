import LiveMarkup.Proofs.Rendering.Origin
import LiveMarkup.Proofs.Rendering.Planning
import LiveMarkup.Proofs.Rendering.Presentation
import LiveMarkup.Rendering.Renderer
/-!
# The first value in a container

A value that fits is shown in an element that nothing has been shown in: rendering succeeds without a
notice, and the children of the element are what the value stands for (`render_content`). The container
then displays an exhibit of the value (`Renderer.Displays`), which is where the next value starts from.
-/

namespace LiveMarkup

/-- A cache for an exhibit of a use that is in a container. -/
def Exhibit.cache (x : Exhibit) : Cache :=
  ⟨x.instances, x.slots, x.blocks.head?⟩

namespace Document

variable {d d' : Document} {nodes : List NodeId} {n : NodeId} {block : Block} {ps : List Plant}
  {entries : List (Binding × Spot)}

/-- A new piece becomes the only content of an element that was there before. -/
theorem Presents.mount (h : Presents d d' nodes [(block, ps)] entries) (hn : d.Has n)
    (helement : d.isElement n = true) {custody : Custody}
    (hheld : n ∈ custody.nodes) (hblock : block.held ⊆ custody.nodes)
    (hentries : ∀ e ∈ entries, e.1.held ⊆ custody.nodes) :
    (((d'.setText n "").release custody).insertBlock n block none).Ready (some n) ps [] entries ∧
      (((d'.setText n "").release custody).insertBlock n block none).isElement n = true ∧
      (((d'.setText n "").release custody).insertBlock n block none).notices = d.notices := by
  have hhas := h.keeps.has hn
  have hout : ∀ x ∈ [(block, ps)], ¬ Within x.1.root? x.2 n := fun x hx hw =>
    h.fresh.nodes x hx n hw hn
  have helement' : d'.isElement n = true := by
    rw [isElement, h.keeps.kind n hn]
    exact helement
  have hr := rewritten_setText h.ready.sound hhas helement' ""
  have hready := h.ready.rewritten hr hout
  generalize d'.setText n "" = d₂ at *
  have hkeeps := keeps_release (d := d₂) (List.Subset.refl custody.nodes)
  have hready' := hready.keeps hkeeps (hr.sound.release custody) (fun p hp => by cases hp)
    (fun _ q hq => by cases hq) (List.forall_mem_singleton.2 hblock) hentries
  have hrow := (hkeeps.same n (hr.has hhas) (.root hheld)).children
  have helement'' : (d₂.release custody).isElement n = true := by
    rw [isElement, hkeeps.kind n (hr.has hhas), hr.kind hhas]
    exact helement'
  obtain ⟨hmounted, hins⟩ := hready'.mount (hkeeps.has (hr.has hhas)) (leaf?_of_isElement helement'')
    (hrow.trans hr.row) hout fun c k hc he => h.fresh.bindings _ hc (he.symm ▸ hn)
  exact ⟨hmounted, hins.relinked.isElement n ▸ helement'',
    hins.notices.trans (hkeeps.notices.trans (hr.notices.trans h.keeps.notices))⟩

end Document

section Realize

variable {space : Markup.Namespace} {template : Template} {compiled : Compiled} {holes : List Plan} {d : Document}

/-- With a cache in which nothing is found again, a use of a template becomes an exhibit made of new things, and
nothing else is left of it. -/
theorem Cache.realize_anew (hfits : (Plan.use space template compiled holes).Fits) (custody : Custody)
    {cache : Cache} (hcache : Level.Lacks ⟨cache.instances, cache.slots, [], d⟩
      (Plan.use space template compiled holes).forms (Plan.use space template compiled holes).decks) :
    ∃ x block d', Exhibit.Shows x (.use space template compiled holes) ∧ x.pieces = [(block, x.plants)] ∧
      cache.realize custody d ⟨space, template, compiled, holes⟩
        = (block, ⟨x.instances, x.slots, cache.root⟩, d') ∧
      Document.Makes d d' (custody.nodes ++ cache.root.elim [] Block.held) x.pieces x.entries x.nodes := by
  cases hfits with
  | use hc hp hcount hfits hleaves =>
    rw [Plan.forms, Plan.decks] at hcache
    obtain ⟨i, roots, spots, xs, d₁, hx, huse, hmakes⟩ := made_use hc hp hcount hfits hleaves
      (made_anew.2 _ hfits).1 (custody.holding (cache.root.elim [] Block.held)) hcache
    generalize hexhibit : Exhibit.use i roots spots xs = x at *
    have hpieces : x.pieces = [(i.block, x.plants)] := by
      rw [← hexhibit, Exhibit.pieces, Exhibit.plants]
    have hinstances : i :: Exhibit.instancesAll xs = x.instances := by
      rw [← hexhibit, Exhibit.instances]
    have hslots : Exhibit.slotsAll xs = x.slots := by rw [← hexhibit, Exhibit.slots]
    rw [hinstances, hslots] at huse
    generalize hcustody : custody.holding (cache.root.elim [] Block.held) = outside at *
    have hheld : x.held ⊆ (Cache.mk x.instances x.slots cache.root).held := by
      rw [Cache.held, Exhibit.held]
      exact List.subset_append_left ..
    have hself := List.Subset.trans hheld
      (List.subset_append_left (Cache.mk x.instances x.slots cache.root).held outside.nodes)
    refine ⟨x, i.block, d₁.release (outside.holding (Cache.mk x.instances x.slots cache.root).held), hx, hpieces, ?_,
      (hmakes.mono fun n hn => List.mem_append_left _ ?_).release (fun n hn => List.mem_append_right _ ?_)
        (fun y hy => List.Subset.trans (Exhibit.pieces_held.1 x y hy) hself)
        fun e he => List.Subset.trans (Exhibit.entries_held.1 x e he) hself⟩
    · rw [Cache.realize, hcustody]
      dsimp only
      rw [huse, Level.close]
      simp [Level.shown, Level.past]
    all_goals
      rw [← hcustody]
      exact List.mem_append.2 (List.mem_append.1 hn).symm

end Realize

namespace Renderer

variable {r r' : Renderer} {container : NodeId} {space : Markup.Namespace} {template : Template}
  {values : List Value} {x : Exhibit}

/-- The document and the catalogue are as they should be. -/
structure Sound (r : Renderer) : Prop where
  document : r.document.Sound
  catalogue : r.catalogue.Sound

/-- An element has an exhibit as its content and remembers it. -/
structure Displays (r : Renderer) (container : NodeId) (x : Exhibit) : Prop where
  sound : r.Sound
  element : r.document.isElement container = true
  ready : r.document.Ready (some container) x.plants [] x.entries
  nodup : (container :: x.nodes).Nodup
  has : ∀ n ∈ x.nodes, r.document.Has n
  cache : r.cacheOf container = x.cache

theorem cacheOf_setCacheOf (r : Renderer) (container : NodeId) (cache : Cache) :
    (r.setCacheOf container cache).cacheOf container = cache := by
  rw [cacheOf, setCacheOf, List.lookup_cons_self]
  rfl

/-- The cache of the container after it has been mounted. -/
theorem cacheOf_mount (r : Renderer) (container : NodeId) (cache : Cache) (block : Block) :
    (r.mount container cache block).cacheOf container = { cache with root := some block } := by
  unfold mount
  split
  · rename_i hroot
    rw [cacheOf_setCacheOf, ← hroot]
    cases cache
    rfl
  · exact cacheOf_setCacheOf ..

/-- Putting a block into a container leaves fragments empty that are not those of the block. -/
theorem vacated_mount {cache : Cache} {block : Block} {fs : List NodeId} (hr : r.document.Sound)
    (hhas : r.document.Has container) (helement : r.document.isElement container = true)
    (hroot : cache.root ≠ some block) (hforest : (r.mount container cache block).document.Forest)
    (h : r.document.Vacated fs) (hapart : ∀ f ∈ fs, f ∉ block.fragments) :
    (r.mount container cache block).document.Vacated fs := by
  have hset := Document.rewritten_setText hr hhas helement ""
  have hfragment := Document.isFragment_of_isElement helement
  have hcleared := h.gentle (hset.gentle hfragment)
  rw [mount, if_neg hroot] at hforest ⊢
  refine (hcleared.gentle (Document.gentle_release _)).shifts
    (Document.shifts_insert _ container block none) (hset.sound.release _).forest hforest
    fun f hf hmem => ?_
  rcases List.mem_cons.1 hmem with heq | hmem
  · have hfrag := (h.empty f hf).2.1
    rw [heq, hfragment] at hfrag
    cases hfrag
  · exact hapart f hf hmem

/-- Rendering an invocation where nothing is found again makes an exhibit of it, of new nodes alone. -/
theorem displays_anew (hr : r.Sound) (hhas : r.document.Has container)
    (helement : r.document.isElement container = true) (hv : (Value.invocation space template values).Fits)
    (hlacks : Level.Lacks ⟨(r.cacheOf container).instances, (r.cacheOf container).slots, [], r.document⟩
      (Value.invocation space template values).toPlan.forms (Value.invocation space template values).toPlan.decks)
    (hroot : ∀ b, (r.cacheOf container).root = some b → ∃ n ∈ b.nodes, r.document.Has n) :
    ∃ r' x, r.render container (.invocation space template values) = (.ok (), r') ∧
      r'.Displays container x ∧ x.Shows (Value.invocation space template values).toPlan ∧
      r'.document.notices = r.document.notices ∧ r.document.Novel r'.document x.nodes ∧
      r'.document.Vacated (Exhibit.placed x.entries) := by
  obtain ⟨catalogue, hplan, hcatalogue⟩ := Catalogue.planUse_eq hv hr.catalogue
  have hfits := hv.toPlan
  rw [Value.toPlan] at hfits hlacks ⊢
  generalize hcache : r.cacheOf container = cache at *
  obtain ⟨x, block, d₁, hx, hpieces, hrealize, hmakes⟩ := Cache.realize_anew hfits
    ((r.custody container none).holding (Value.invocation space template values).held) hlacks
  have hpresents := hmakes.presents
  rw [hpieces] at hpresents
  have hother : cache.root ≠ some block := fun hblock => by
    obtain ⟨n, hn, hhas⟩ := hroot block hblock
    refine (hmakes.novel.new n ?_).1 hhas
    cases x with
    | leaf | list => exact False.elim hx
    | use i roots spots xs =>
      rw [Exhibit.pieces] at hpieces
      obtain rfl := (Prod.mk.inj (List.singleton_inj.1 hpieces)).1
      rw [hx.2.2.1] at hn
      rw [Exhibit.nodes, List.append_assoc, List.append_assoc]
      exact List.mem_append_left _ (Document.mem_idsAll_of_mem_map hn)
  have hcached : x.held ⊆ block.held ++ (⟨x.instances, x.slots, cache.root⟩ : Cache).held := fun n hn =>
    List.mem_append_right _ (List.mem_append_left _ hn)
  generalize hkept : (r.custody container none).holding
    (block.held ++ (⟨x.instances, x.slots, cache.root⟩ : Cache).held) = kept
  have hheld : block.held ++ (⟨x.instances, x.slots, cache.root⟩ : Cache).held ⊆ kept.nodes := by
    rw [← hkept]
    exact List.subset_append_left ..
  have hcontainer : container ∈ kept.nodes := by
    rw [← hkept]
    refine List.mem_append_right _ (List.mem_append_left _ (List.mem_append_left _ ?_))
    exact List.mem_singleton_self container
  obtain ⟨hready, helement', hnotices⟩ := hpresents.mount hhas helement hcontainer
    (List.Subset.trans (List.subset_append_left ..) hheld)
    fun e he => List.Subset.trans (Exhibit.entries_held.1 x e he) (List.Subset.trans hcached hheld)
  have hgrown : d₁.Grows (((d₁.setText container "").release kept).insertBlock container block none) :=
    (Document.grows_setText ..).trans <| (Document.evolves_release ..).grows.trans <|
      (Document.shifts_insert ..).grows
  have hmount : (({ r with catalogue, document := d₁ } : Renderer).mount container
      ⟨x.instances, x.slots, cache.root⟩ block)
      = { r with
          catalogue
          document := ((d₁.setText container "").release kept).insertBlock container block none }.setCacheOf
        container x.cache := by
    rw [mount, if_neg hother, ← hkept, Exhibit.cache, Exhibit.blocks, hpieces]
    rfl
  have hvacated : (({ r with catalogue, document := d₁ } : Renderer).mount container
      ⟨x.instances, x.slots, cache.root⟩ block).document.Vacated (Exhibit.placed x.entries) :=
    vacated_mount hpresents.ready.sound (hpresents.keeps.has hhas)
      (by rw [Document.isElement, hpresents.keeps.kind container hhas]; exact helement) hother
      (by rw [hmount]; exact hready.sound.forest) hmakes.vacated fun f hf hfb => by
        have hnd := hmakes.fragments.nodup
        rw [hpieces, List.map_singleton, List.flatMap_singleton, List.nodup_append] at hnd
        exact hnd.2.2 f hfb f hf rfl
  rw [hmount] at hvacated
  generalize ((d₁.setText container "").release kept).insertBlock container block none = d₂ at *
  have hnovel := hmakes.novel
  refine ⟨{ r with catalogue, document := d₂ }.setCacheOf container x.cache, x, ?_,
    ⟨⟨hready.sound, hcatalogue⟩, helement', hready, ?_, fun n hn => hgrown.has (hnovel.new n hn).2,
      cacheOf_setCacheOf ..⟩, hx, hnotices, ⟨Nat.le_trans hnovel.grown hgrown.nodes, hnovel.nodup, fun n hn =>
      ⟨(hnovel.new n hn).1, hgrown.has (hnovel.new n hn).2⟩⟩, hvacated⟩
  · rw [render]
    dsimp only
    rw [hplan]
    dsimp only
    rw [hcache, hrealize, hmount]
  · exact List.nodup_cons.2 ⟨fun hn => (hnovel.new _ hn).1 hhas, hnovel.nodup⟩

/-- Rendering an invocation where nothing has been shown makes an exhibit of it. -/
theorem displays_render (hr : r.Sound) (hhas : r.document.Has container)
    (helement : r.document.isElement container = true)
    (hcache : r.containers.lookup container = none)
    (hv : (Value.invocation space template values).Fits) :
    ∃ r' x, r.render container (.invocation space template values) = (.ok (), r') ∧
      r'.Displays container x ∧ x.Shows (Value.invocation space template values).toPlan ∧
      r'.document.notices = r.document.notices ∧ r.document.Novel r'.document x.nodes ∧
      r'.document.Vacated (Exhibit.placed x.entries) := by
  have hempty : r.cacheOf container = .empty := by rw [cacheOf, hcache]; rfl
  have hnew : Level.IsNew ⟨(r.cacheOf container).instances, (r.cacheOf container).slots, [], r.document⟩ := by
    rw [hempty]
    exact ⟨rfl, rfl, hr.document⟩
  refine displays_anew hr hhas helement hv (hnew.lacks _ _) fun b hb => ?_
  rw [hempty] at hb
  cases hb

/-- What a container displays is what the value stands for. -/
theorem Displays.content (h : r.Displays container x) {v : Value} (hx : x.Shows v.toPlan)
    (hv : v.Fits) (hinvocation : v.IsInvocation) :
    r.document.content container = v.toPlan.content := by
  obtain ⟨space, template, values, rfl⟩ := hinvocation
  have hfits := hv.toPlan
  rw [Value.toPlan] at hfits hx ⊢
  rw [h.ready.bears.content h.sound.document.forest, Exhibit.trees_plants hx hfits]

/-- A value that fits is rendered without a notice into an element in which nothing has been shown, and
the content of the element becomes what the value stands for. -/
theorem render_content (hr : r.Sound) (hhas : r.document.Has container)
    (helement : r.document.isElement container = true)
    (hcache : r.containers.lookup container = none) {v : Value} (hv : v.Fits)
    (hinvocation : v.IsInvocation) :
    ∃ r', r.render container v = (.ok (), r') ∧ r'.Sound ∧
      r'.document.notices = r.document.notices ∧
      r'.document.content container = v.toPlan.content := by
  obtain ⟨space, template, values, rfl⟩ := id hinvocation
  obtain ⟨r', x, hrender, hdisplays, hx, hnotices, -⟩ := displays_render hr hhas helement hcache hv
  exact ⟨r', hrender, hdisplays.sound, hnotices, hdisplays.content hx hv hinvocation⟩

/-- A document with one element. -/
def oneElement : Renderer :=
  empty.edit fun d => (d.create (.element "main" .html) "").2

theorem sound_oneElement : oneElement.Sound :=
  ⟨(Document.made_create Document.sound_empty _ _).sound, Catalogue.sound_empty⟩

/-- A paragraph with an attribute and a list of two items. -/
def paragraph : Value :=
  .invocation .html ⟨0, ["<p id=", ">", "</p>"]⟩ [.string "a", .list [item "x", item "y"]]
where
  item (text : String) : Value := .invocation .html ⟨1, ["<b>", "</b>"]⟩ [.string text]

theorem fits_bold {v : Value} (hv : v.Fits) : (Value.invocation .html ⟨1, ["<b>", "</b>"]⟩ [v]).Fits := by
  have hholes : (Template.compilation .html ⟨1, ["<b>", "</b>"]⟩).compiled.holes
      = [⟨.child, [0, 0]⟩] := by decide +kernel
  refine .invocation (by decide +kernel) (by decide +kernel) ?_ ?_ ?_
  · rw [hholes]
    rfl
  · exact List.forall_mem_singleton.2 hv
  · rw [hholes]
    exact List.forall_mem_singleton.2 fun hkind => absurd rfl hkind

theorem fits_item (text : String) : (paragraph.item text).Fits :=
  fits_bold (.plain (.inr rfl))

theorem fits_paragraph_of {id : Value} (hid : id.IsPlain) (texts : List String) :
    (Value.invocation .html ⟨0, ["<p id=", ">", "</p>"]⟩
      [id, .list (texts.map paragraph.item)]).Fits := by
  have hholes : (Template.compilation .html ⟨0, ["<p id=", ">", "</p>"]⟩).compiled.holes
      = [⟨.attr "id", [0]⟩, ⟨.child, [0, 0]⟩] := by decide +kernel
  have hitems : (Value.list (texts.map paragraph.item)).Fits := by
    refine .list (List.forall_mem_map.2 fun text _ => fits_item text) ?_
    exact List.forall_mem_map.2 fun text _ => ⟨_, _, _, rfl⟩
  refine .invocation (by decide +kernel) (by decide +kernel) ?_ ?_ ?_
  · rw [hholes]
    rfl
  · exact List.forall_mem_cons.2 ⟨.plain hid, List.forall_mem_singleton.2 hitems⟩
  · rw [hholes]
    exact List.forall_mem_cons.2
      ⟨fun _ => hid, List.forall_mem_singleton.2 fun hkind => absurd rfl hkind⟩

theorem fits_paragraph : paragraph.Fits :=
  fits_paragraph_of (.inr rfl) ["x", "y"]

theorem render_paragraph :
    ∃ r', oneElement.render ⟨0⟩ paragraph = (.ok (), r') ∧
      String.ofList (Markup.writeAll false (r'.document.content ⟨0⟩))
        = "<p id=\"a\"><b>x<!--isµ0--></b><b>y<!--isµ0--></b><!--isµ1--></p>" := by
  have hhas : oneElement.document.Has ⟨0⟩ := by decide
  obtain ⟨r', hrender, -, -, hcontent⟩ := render_content sound_oneElement hhas (by decide) rfl
    fits_paragraph ⟨_, _, _, rfl⟩
  refine ⟨r', hrender, ?_⟩
  rw [hcontent]
  decide +kernel

end Renderer

end LiveMarkup
