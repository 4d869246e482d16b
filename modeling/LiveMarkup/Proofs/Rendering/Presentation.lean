import LiveMarkup.Proofs.Rendering.Making
/-!
# Showing a plan where nothing is found again

The uses of a plan take the instances of a level by position. Where none of these was made for the template that
is asked for (`Level.Lacks`), the plan becomes an exhibit that shows it, made of new nodes, texts and attributes
alone (`made_anew`); this is so in particular where nothing has been shown before (`presented`). What was there
before and is held stays what it was. The proof follows the plan: what is nested in the holes of a use is there
before they are filled.
-/

namespace LiveMarkup

open Exhibit

/-! ### What a plan asks for -/

/-- What tells the instances of one template from those of another. -/
abbrev Form := Markup.Namespace × Template

/-- What is asked for on a level and in its slots, in the order in which it is asked for. -/
inductive Deck where
  | mk (forms : List Form) (slots : List Deck)

mutual

/-- What a plan asks for on its level. -/
def Plan.forms : Plan → List Form
  | .leaf _ => []
  | .use space template _ holes => (space, template) :: formsAll holes
  | .list _ => []

/-- What some plans ask for on their level. -/
def formsAll : List Plan → List Form
  | [] => []
  | p :: rest => p.forms ++ formsAll rest

end

mutual

/-- What a plan asks for in the slots of its level. -/
def Plan.decks : Plan → List Deck
  | .leaf _ => []
  | .use _ _ _ holes => decksAll holes
  | .list items => decksOfItems items

/-- What some plans ask for in the slots of their level. -/
def decksAll : List Plan → List Deck
  | [] => []
  | p :: rest => p.decks ++ decksAll rest

/-- What the items of a list ask for, each in a slot of its own. -/
def decksOfItems : List Plan → List Deck
  | [] => []
  | .leaf _ :: rest => decksOfItems rest
  | p :: rest => ⟨p.forms, p.decks⟩ :: decksOfItems rest

end

/-- No instance was made for the template that is asked for at its position. -/
def Misses : List Instance → List Form → Prop
  | i :: is, f :: fs => i.isOf f.1 f.2 = false ∧ Misses is fs
  | _, _ => True

mutual

/-- In a cache of a list item, no instance is found again. -/
def Cache.Misses : Cache → Deck → Prop
  | ⟨is, slots, root⟩, ⟨fs, decks⟩ => root = none ∧ LiveMarkup.Misses is fs ∧ SlotsMiss slots decks

/-- In some slots, no instance is found again. -/
def SlotsMiss : List Cache → List Deck → Prop
  | c :: cs, k :: ks => c.Misses k ∧ SlotsMiss cs ks
  | _, _ => True

end

theorem misses_nil (fs : List Form) : Misses [] fs := by
  rw [Misses]
  · trivial
  · exact fun i is f fs' h => by cases h

theorem slotsMiss_nil (ks : List Deck) : SlotsMiss [] ks := by
  rw [SlotsMiss]
  · trivial
  · exact fun c cs k ks' h => by cases h

theorem misses_append {is : List Instance} {fs fs' : List Form} :
    Misses is (fs ++ fs') ↔ Misses is fs ∧ Misses (is.drop fs.length) fs' := by
  induction fs generalizing is with
  | nil =>
    rw [List.nil_append, List.length_nil, List.drop_zero, and_iff_right]
    cases is <;> trivial
  | cons f fs ih =>
    cases is with
    | nil => simp [misses_nil]
    | cons i is => simp [Misses, ih, and_assoc]

theorem decksOfItems_cons {p : Plan} (hp : ∀ v, p ≠ .leaf v) (ps : List Plan) :
    decksOfItems (p :: ps) = [⟨p.forms, p.decks⟩] ++ decksOfItems ps := by
  rw [decksOfItems, List.singleton_append]
  exact fun v he => hp v he

theorem slotsMiss_append {cs : List Cache} {ks ks' : List Deck} :
    SlotsMiss cs (ks ++ ks') ↔ SlotsMiss cs ks ∧ SlotsMiss (cs.drop ks.length) ks' := by
  induction ks generalizing cs with
  | nil =>
    rw [List.nil_append, List.length_nil, List.drop_zero, and_iff_right]
    cases cs <;> trivial
  | cons k ks ih =>
    cases cs with
    | nil => simp [slotsMiss_nil]
    | cons c cs => simp [SlotsMiss, ih, and_assoc]

/-! ### Levels -/

namespace Level

variable {level : Level} {fs fs' : List Form} {ks ks' : List Deck}

/-- A level that has got some slots, with another document. -/
def shown (level : Level) (slots : List Cache) (d : Document) : Level :=
  { level with newSlots := slots.reverse ++ level.newSlots, document := d }

/-- A level from which some instances and slots have been taken. -/
def past (level : Level) (instances slots : Nat) : Level :=
  { level with oldInstances := level.oldInstances.drop instances, oldSlots := level.oldSlots.drop slots }

/-- A level on which nothing is found again of what is asked for. -/
structure Lacks (level : Level) (fs : List Form) (ks : List Deck) : Prop where
  sound : level.document.Sound
  instances : Misses level.oldInstances fs
  slots : SlotsMiss level.oldSlots ks

/-- A level where nothing has been shown before. -/
structure IsNew (level : Level) : Prop where
  oldInstances : level.oldInstances = []
  oldSlots : level.oldSlots = []
  sound : level.document.Sound

theorem IsNew.lacks (h : level.IsNew) (fs : List Form) (ks : List Deck) : level.Lacks fs ks :=
  ⟨h.sound, h.oldInstances ▸ misses_nil fs, h.oldSlots ▸ slotsMiss_nil ks⟩

theorem IsNew.past (h : level.IsNew) (m n : Nat) : level.past m n = level := by
  rw [Level.past, h.oldInstances, h.oldSlots, List.drop_nil, List.drop_nil, ← h.oldInstances, ← h.oldSlots]

theorem past_past (level : Level) (m n m' n' : Nat) : (level.past m n).past m' n' = level.past (m + m') (n + n') := by
  simp only [past, List.drop_drop]

theorem shown_past (level : Level) (slots : List Cache) (d : Document) (m n : Nat) :
    (level.shown slots d).past m n = (level.past m n).shown slots d :=
  rfl

theorem shown_shown (level : Level) (slots slots' : List Cache) (d d' : Document) :
    (level.shown slots d).shown slots' d' = level.shown (slots ++ slots') d' := by
  simp [shown]

theorem held_shown (level : Level) (slots : List Cache) (d : Document) (n : NodeId) :
    n ∈ (level.shown slots d).held ↔ n ∈ heldBySlots slots ∨ n ∈ level.held := by
  have hreverse : ∀ cs : List Cache, n ∈ heldBySlots cs.reverse ↔ n ∈ heldBySlots cs := by
    intro cs
    induction cs with
    | nil => rfl
    | cons c cs ih =>
      simp only [List.reverse_cons, heldBySlots_append, heldBySlots, List.mem_append, List.append_nil, ih]
      exact or_comm
  simp only [held, shown, heldBySlots_append, List.mem_append, hreverse]
  tauto

theorem held_past (level : Level) (m n : Nat) : (level.past m n).held ⊆ level.held := by
  have hslots : ∀ (cs : List Cache) (n : Nat), heldBySlots (cs.drop n) ⊆ heldBySlots cs := by
    intro cs n k hk
    rw [← List.take_append_drop n cs, heldBySlots_append]
    exact List.mem_append_right _ hk
  refine List.append_subset.2 ⟨List.append_subset.2 ⟨fun k hk => ?_, fun k hk => ?_⟩, List.subset_append_right ..⟩
  · obtain ⟨i, hi, hk⟩ := List.mem_flatMap.1 hk
    exact List.mem_append_left _ (List.mem_append_left _ (List.mem_flatMap.2 ⟨i, List.mem_of_mem_drop hi, hk⟩))
  · exact List.mem_append_left _ (List.mem_append_right _ (hslots _ _ hk))

namespace Lacks

theorem left (h : level.Lacks (fs ++ fs') (ks ++ ks')) : level.Lacks fs ks :=
  ⟨h.sound, (misses_append.1 h.instances).1, (slotsMiss_append.1 h.slots).1⟩

theorem right (h : level.Lacks (fs ++ fs') (ks ++ ks')) (slots : List Cache) {d : Document} (hs : d.Sound) :
    ((level.past fs.length ks.length).shown slots d).Lacks fs' ks' :=
  ⟨hs, (misses_append.1 h.instances).2, (slotsMiss_append.1 h.slots).2⟩

end Lacks

/-- A list item takes the next slot, or an empty one. -/
theorem takeSlot_eq (level : Level) : level.takeSlot = (level.oldSlots.headD .empty, level.past 0 1) := by
  cases level with
  | mk instances slots newSlots d => cases slots <;> rfl

/-- An item of a list is shown on a level of its own, and its slot is the next one then. -/
theorem realizeItems_item {custody : Custody} {level later : Level} {p : Plan} {x : Exhibit} {d : Document}
    (hp : ∀ v, p ≠ .leaf v) (hroot : (level.oldSlots.headD .empty).root = none)
    (hrealize : p.realize (custody.holding (level.past 0 1).held) ⟨(level.oldSlots.headD .empty).instances,
      (level.oldSlots.headD .empty).slots, [], level.document⟩ = ⟨x.result, x.instances, later.shown x.slots d⟩)
    (hlater : later.newSlots = []) (ps : List Plan) :
    realizeItems custody level (p :: ps) =
      let others := realizeItems custody ((level.past 0 1).shown [⟨x.instances, x.slots, none⟩]
        (d.release ((custody.holding (level.past 0 1).held).holding x.held))) ps
      ⟨x.result :: others.result, [], others.level⟩ :=
  realizeItems_slot hp level.takeSlot_eq hroot hrealize ⟨by rw [shown, hlater, List.append_nil], rfl⟩ ps

end Level

/-! ### Showing plans -/

/-- A plan becomes an exhibit made of new things wherever nothing is found again. -/
def MadeAnew (p : Plan) : Prop :=
  ∀ (custody : Custody) (level : Level), level.Lacks p.forms p.decks → ∃ x d', Exhibit.Shows x p ∧
    p.realize custody level
      = ⟨x.result, x.instances, (level.past p.forms.length p.decks.length).shown x.slots d'⟩ ∧
    Document.Makes level.document d' (custody.nodes ++ (level.past p.forms.length p.decks.length).held) x.pieces
      x.entries x.nodes

/-- Plans for the items of a list become exhibits made of new things wherever nothing is found again. -/
def ItemsMadeAnew (ps : List Plan) : Prop :=
  ∀ (custody : Custody) (level : Level), level.Lacks [] (decksOfItems ps) → ∃ xs d', ShowsAll xs ps ∧
    realizeItems custody level ps
      = ⟨results xs, [], (level.past 0 (decksOfItems ps).length).shown (slotsOfItems xs) d'⟩ ∧
    Document.Makes level.document d' (custody.nodes ++ (level.past 0 (decksOfItems ps).length).held)
      (piecesAll xs) (entriesAll xs) (nodesAll xs)

/-- Plans for holes become exhibits made of new things wherever nothing is found again. -/
def AllMadeAnew (ps : List Plan) : Prop :=
  ∀ (custody : Custody) (level : Level), level.Lacks (formsAll ps) (decksAll ps) → ∃ xs d', ShowsAll xs ps ∧
    realizeAll custody level ps
      = ⟨results xs, instancesAll xs, (level.past (formsAll ps).length (decksAll ps).length).shown (slotsAll xs) d'⟩ ∧
    Document.Makes level.document d' (custody.nodes ++ (level.past (formsAll ps).length (decksAll ps).length).held)
      (piecesAll xs) (entriesAll xs) (nodesAll xs)

section Use

variable {space : Markup.Namespace} {template : Template} {compiled : Compiled} {holes ps : List Plan}

/-- Where nothing is found again, a use of a template has a new instance to fill when all is there that is nested
in its holes: the instance is made before that if there was none at its position, and after it if there was one
of another template. -/
theorem Level.Lacks.exists_created (hc : compiled.Coherent) (hp : compiled.Plain) (hholes : AllMadeAnew holes)
    (custody : Custody) {level : Level} (hlevel : level.Lacks ((space, template) :: formsAll holes) (decksAll holes)) :
    ∃ d₀ base d₁ i roots es xs d', Document.Created d₀ base d₁ i compiled roots es ∧ i.space = space ∧
      i.template = template ∧ ShowsAll xs holes ∧
      Document.Makes level.document d'
        (custody.nodes ++ (level.past ((formsAll holes).length + 1) (decksAll holes).length).held)
        ((i.block, roots) :: piecesAll xs) (es ++ entriesAll xs)
        (Plant.idsAll roots ++ i.bindings.flatMap Binding.texts ++ nodesAll xs) ∧
      (level.use custody space template compiled fun custody level => realizeAll custody level holes)
        = let filled := ((level.past ((formsAll holes).length + 1) (decksAll holes).length).shown (slotsAll xs)
            d').fill ((custody.holding ((instancesAll xs).flatMap Instance.held)).holding i.block.held) i.bindings
            (results xs)
          ⟨i.block, { i with bindings := filled.1 } :: instancesAll xs, filled.2⟩ := by
  cases hold : level.oldInstances with
  | nil =>
    obtain ⟨base, roots, es, hcreated⟩ := Document.created_create hlevel.sound space template hc hp
    have htake : level.take space template compiled = ((Instance.create level.document space template compiled).1,
        { level with document := (Instance.create level.document space template compiled).2 }) := by
      rw [Level.take, hold]
    have hspace : (Instance.create level.document space template compiled).1.space = space := rfl
    have htemplate : (Instance.create level.document space template compiled).1.template = template := rfl
    generalize (Instance.create level.document space template compiled).1 = i at *
    generalize (Instance.create level.document space template compiled).2 = dc at *
    have hinner : ({ level with document := dc } : Level).past (formsAll holes).length (decksAll holes).length
        = { level.past ((formsAll holes).length + 1) (decksAll holes).length with document := dc } := by
      rw [Level.past, Level.past, hold, List.drop_nil, List.drop_nil]
    obtain ⟨xs, d', hshows, hrealize, hmakes⟩ := hholes (custody.holding i.held) { level with document := dc }
      ⟨hcreated.sound, hold ▸ misses_nil _, hlevel.slots⟩
    rw [hinner] at hrealize hmakes
    have hheld : i.held ⊆ (custody.holding i.held).nodes
        ++ (level.past ((formsAll holes).length + 1) (decksAll holes).length).held := fun n hn =>
      List.mem_append_left _ (List.mem_append_left _ hn)
    refine ⟨_, base, dc, i, roots, es, xs, d', hcreated, hspace, htemplate, hshows,
      (hcreated.makes hlevel.sound.owned _).append hmakes (fun n hn => ?_)
      (List.forall_mem_singleton.2 fun n hn => hheld (List.mem_append_left _ hn)) fun e he n hn => hheld ?_, ?_⟩
    · exact (List.mem_append.1 hn).elim (fun hn => List.mem_append_left _ (List.mem_append_right _ hn))
        (List.mem_append_right _)
    · exact hcreated.held e he hn
    · rw [Level.use, htake]
      dsimp only
      rw [hrealize]
      dsimp only
      rw [Level.fit, if_pos (Instance.isOf_of_eq hspace htemplate)]
      rfl
  | cons j rest =>
    have hmisses := hlevel.instances
    rw [hold] at hmisses
    obtain ⟨hother, hmisses⟩ := hmisses
    have htake : level.take space template compiled = (j, { level with oldInstances := rest }) := by
      rw [Level.take, hold]
    have hinner : ({ level with oldInstances := rest } : Level).past (formsAll holes).length (decksAll holes).length
        = level.past ((formsAll holes).length + 1) (decksAll holes).length := by
      rw [Level.past, Level.past, hold, List.drop_succ_cons]
    obtain ⟨xs, dh, hshows, hrealize, hmakes⟩ := hholes (custody.holding j.held) { level with oldInstances := rest }
      ⟨hlevel.sound, hmisses, hlevel.slots⟩
    rw [hinner] at hrealize hmakes
    obtain ⟨base, roots, es, hcreated⟩ :=
      Document.created_create hmakes.presents.ready.sound space template hc hp
    have hfit : ∀ custody : Custody, (((level.past ((formsAll holes).length + 1)
          (decksAll holes).length).shown (slotsAll xs) dh).fit custody j space template compiled)
        = ((Instance.create dh space template compiled).1, ({ (level.past ((formsAll holes).length + 1)
          (decksAll holes).length).shown (slotsAll xs) dh with
            document := (Instance.create dh space template compiled).2 } : Level).release custody
          (Instance.create dh space template compiled).1.held) := by
      intro custody
      rw [Level.fit, if_neg (by rw [hother]; exact Bool.false_ne_true)]
      rfl
    have hspace : (Instance.create dh space template compiled).1.space = space := rfl
    have htemplate : (Instance.create dh space template compiled).1.template = template := rfl
    generalize (Instance.create dh space template compiled).1 = i at *
    generalize (Instance.create dh space template compiled).2 = dc at *
    generalize hlater : level.past ((formsAll holes).length + 1) (decksAll holes).length = later at *
    -- the new instance comes behind what is nested in it, and then all that is not held is let go of
    have hbefore : custody.nodes ++ later.held ⊆ (custody.holding j.held).nodes ++ later.held := fun n hn =>
      (List.mem_append.1 hn).elim (fun hn => List.mem_append_left _ (List.mem_append_right _ hn))
        (List.mem_append_right _)
    have hall := (hmakes.mono hbefore).created hcreated
    generalize hcustody : (custody.holding ((instancesAll xs).flatMap Instance.held)).holding
      (i.held ++ (later.shown (slotsAll xs) dc).held) = custody'
    have hself : ∀ n, n ∈ custody'.nodes ↔ (n ∈ i.held ∨ n ∈ heldBySlots (slotsAll xs) ∨ n ∈ later.held) ∨
        n ∈ (instancesAll xs).flatMap Instance.held ∨ n ∈ custody.nodes := fun n => by
      simp only [← hcustody, Custody.holding, List.mem_append, Level.held_shown]
    have hxs : heldAll xs ⊆ custody'.nodes := fun n hn => by
      rw [heldAll, List.mem_append] at hn
      rw [hself]
      tauto
    refine ⟨_, base, dc, i, roots, es, xs, dc.release custody', hcreated, hspace, htemplate, hshows,
      hall.release (fun n hn => ?_) (List.forall_mem_cons.2 ⟨fun n hn => ?_, fun y hy => ?_⟩) fun e he => ?_, ?_⟩
    · rw [hself]
      rw [List.mem_append] at hn
      tauto
    · exact (hself n).2 (.inl (.inl (List.mem_append_left _ hn)))
    · exact List.Subset.trans (pieces_held.2 xs y hy).1 hxs
    · rcases List.mem_append.1 he with he | he
      · exact fun n hn => (hself n).2 (.inl (.inl (hcreated.held e he hn)))
      · exact List.Subset.trans (entries_held.2 xs e he).1 hxs
    · rw [Level.use, htake]
      dsimp only
      rw [hrealize]
      dsimp only
      rw [hfit, Level.release]
      dsimp only
      rw [show ({ later.shown (slotsAll xs) dh with document := dc } : Level) = later.shown (slotsAll xs) dc from rfl,
        hcustody]
      rfl

/-- A use of a template becomes an exhibit if what is nested in its holes does. -/
theorem made_use (hc : compiled.Coherent) (hp : compiled.Plain) (hcount : compiled.holes.length = holes.length)
    (hfits : ∀ p ∈ holes, p.Fits)
    (hleaves : ∀ h ∈ compiled.holes.zip holes, h.1.kind ≠ .child → ∃ v, h.2 = .leaf v)
    (hholes : AllMadeAnew holes) (custody : Custody) {level : Level}
    (hlevel : level.Lacks ((space, template) :: formsAll holes) (decksAll holes)) :
    ∃ i roots spots xs d', (use i roots spots xs).Shows (.use space template compiled holes) ∧
      (level.use custody space template compiled fun custody level => realizeAll custody level holes)
        = ⟨i.block, i :: instancesAll xs,
          (level.past ((formsAll holes).length + 1) (decksAll holes).length).shown (slotsAll xs) d'⟩ ∧
      Document.Makes level.document d'
        (custody.nodes ++ (level.past ((formsAll holes).length + 1) (decksAll holes).length).held)
        (use i roots spots xs).pieces (use i roots spots xs).entries (use i roots spots xs).nodes := by
  obtain ⟨d₀, base, d₁, i, roots, es, xs, d', hcreated, rfl, rfl, hshows, hmakes, huse⟩ :=
    hlevel.exists_created hc hp hholes custody
  generalize level.past ((formsAll holes).length + 1) (decksAll holes).length = later at *
  generalize hcustody : (custody.holding ((instancesAll xs).flatMap Instance.held)).holding i.block.held
    = custody' at *
  obtain ⟨bindings, spots, d'', hfill, hx, hmakes'⟩ := Document.Makes.filled hcreated hc hp hcount hfits hleaves
    hshows (later.shown (slotsAll xs) d') custody' hmakes (fun n hn => by
      simp only [← hcustody, Custody.holding, List.mem_append, Level.held_shown] at hn ⊢
      tauto) (fun n hn => by
      simp only [← hcustody, Custody.holding, heldAll, List.mem_append, Level.held_shown] at hn ⊢
      tauto) (by rw [← hcustody]; exact List.subset_append_left ..)
  refine ⟨{ i with bindings }, roots, spots, xs, d'', hx, ?_, hmakes'⟩
  rw [huse, hfill]
  rfl

end Use

theorem made_leaf (v : Value) : MadeAnew (.leaf v) := by
  intro custody level hlevel
  refine ⟨.leaf v, level.document, rfl, ?_, ?_⟩
  · rw [Plan.realize, result, instances, slots]
    rfl
  · rw [pieces, entries, nodes]
    exact .nil hlevel.sound _

theorem allMade_nil : AllMadeAnew [] := by
  intro custody level hlevel
  refine ⟨[], level.document, trivial, ?_, ?_⟩
  · rw [realizeAll, results, instancesAll, slotsAll]
    rfl
  · rw [piecesAll, entriesAll, nodesAll]
    exact .nil hlevel.sound _

theorem allMade_cons {p : Plan} {ps : List Plan} (hp : MadeAnew p) (hps : AllMadeAnew ps) : AllMadeAnew (p :: ps) := by
  intro custody level hlevel
  rw [formsAll, decksAll] at hlevel
  obtain ⟨x, d₁, hx, hrealize, h₁⟩ := hp custody level hlevel.left
  obtain ⟨xs, d₂, hxs, hrealize', h₂⟩ := hps (custody.holding (x.instances.flatMap Instance.held)) _
    (hlevel.right x.slots h₁.presents.ready.sound)
  rw [Level.shown_past, Level.past_past, ← List.length_append, ← List.length_append] at hrealize' h₂
  have hsub := (level.past p.forms.length p.decks.length).held_past (formsAll ps).length (decksAll ps).length
  rw [Level.past_past, ← List.length_append, ← List.length_append] at hsub
  refine ⟨x :: xs, d₂, ⟨hx, hxs⟩, ?_, ?_⟩
  · rw [realizeAll, hrealize]
    dsimp only
    rw [hrealize', Level.shown_shown, results, instancesAll, slotsAll, formsAll, decksAll]
  · rw [piecesAll, entriesAll, nodesAll, formsAll, decksAll]
    generalize level.past (p.forms ++ formsAll ps).length (p.decks ++ decksAll ps).length = later at *
    have hheld : x.held ⊆ (custody.holding (x.instances.flatMap Instance.held)).nodes
        ++ (later.shown x.slots d₁).held := by
      intro n hn
      rw [List.mem_append, Level.held_shown]
      exact (List.mem_append.1 hn).imp (List.mem_append_left _) .inl
    refine (h₁.mono (List.append_subset.2 ⟨List.subset_append_left .., List.Subset.trans hsub
      (List.subset_append_right ..)⟩)).append h₂ (fun n hn => ?_)
      (fun y hy => List.Subset.trans (pieces_held.1 x y hy) hheld)
      fun e he => List.Subset.trans (entries_held.1 x e he) hheld
    rw [List.mem_append, Level.held_shown]
    exact (List.mem_append.1 hn).imp (List.mem_append_right _) .inr

theorem itemsMade_nil : ItemsMadeAnew [] := by
  intro custody level hlevel
  refine ⟨[], level.document, trivial, ?_, ?_⟩
  · rw [realizeItems, results, slotsOfItems]
    rfl
  · rw [piecesAll, entriesAll, nodesAll]
    exact .nil hlevel.sound _

theorem itemsMade_leaf (v : Value) {ps : List Plan} (hps : ItemsMadeAnew ps) : ItemsMadeAnew (.leaf v :: ps) := by
  intro custody level hlevel
  rw [decksOfItems] at hlevel
  obtain ⟨xs, d', hxs, hrealize, h⟩ := hps custody level hlevel
  refine ⟨.leaf v :: xs, d', ⟨rfl, hxs⟩, ?_, ?_⟩
  · rw [realizeItems, hrealize, results, result, slotsOfItems, decksOfItems]
  · rw [piecesAll, entriesAll, nodesAll, pieces, entries, nodes, decksOfItems]
    exact h

/-- An item of a list has a slot of its own, and nothing is left on its level when it is done. -/
theorem itemsMade_use {space : Markup.Namespace} {template : Template} {compiled : Compiled} {holes ps : List Plan}
    (hp : MadeAnew (.use space template compiled holes)) (hps : ItemsMadeAnew ps) :
    ItemsMadeAnew (.use space template compiled holes :: ps) := by
  intro custody level hlevel
  have hleaf : ∀ v, Plan.use space template compiled holes ≠ .leaf v := fun v he => by cases he
  generalize Plan.use space template compiled holes = p at *
  rw [decksOfItems_cons hleaf] at hlevel ⊢
  have hmisses : (level.oldSlots.headD .empty).root = none ∧
      Misses (level.oldSlots.headD .empty).instances p.forms ∧
      SlotsMiss (level.oldSlots.headD .empty).slots p.decks := by
    have hslots := hlevel.slots
    cases hold : level.oldSlots with
    | nil => exact ⟨rfl, misses_nil _, slotsMiss_nil _⟩
    | cons c cs =>
      rw [hold] at hslots
      obtain ⟨is, slots, root⟩ := c
      exact hslots.1
  obtain ⟨x, d₁, hx, hrealize, h₁⟩ := hp (custody.holding (level.past 0 1).held)
    ⟨(level.oldSlots.headD .empty).instances, (level.oldSlots.headD .empty).slots, [], level.document⟩
    ⟨hlevel.sound, hmisses.2.1, hmisses.2.2⟩
  have hitems := Level.realizeItems_item hleaf hmisses.1 hrealize rfl ps
  have hne := ne_leaf_of_shows hx hleaf
  generalize hcustody : (custody.holding (level.past 0 1).held).holding x.held = kept at *
  have hkept : x.held ⊆ kept.nodes := by
    rw [← hcustody]
    exact List.subset_append_left ..
  have hbefore : custody.nodes ++ (level.past 0 1).held ⊆ kept.nodes := fun n hn => by
    rw [← hcustody]
    exact List.mem_append_right _ (List.mem_append.2 (List.mem_append.1 hn).symm)
  have h₂ := Document.Makes.release (h₁.mono fun n hn => List.mem_append_left _
      (List.mem_append.2 (List.mem_append.1 hn).symm)) hbefore
    (fun y hy => List.Subset.trans (pieces_held.1 x y hy) hkept)
    fun e he => List.Subset.trans (entries_held.1 x e he) hkept
  -- the other items come behind it on the same level
  obtain ⟨xs, d₂, hxs, hrealize', h₃⟩ := hps custody
    ((level.past 0 1).shown [⟨x.instances, x.slots, none⟩] (d₁.release kept))
    ⟨h₂.presents.ready.sound, (misses_append.1 (show Misses _ ([] ++ _) from hlevel.instances)).2,
      (slotsMiss_append.1 hlevel.slots).2⟩
  have hlast : (level.past 0 1).past 0 (decksOfItems ps).length
      = level.past 0 ([(⟨p.forms, p.decks⟩ : Deck)] ++ decksOfItems ps).length := by
    rw [Level.past_past, List.length_append]
    rfl
  have hsub := (level.past 0 1).held_past 0 (decksOfItems ps).length
  rw [Level.shown_past, hlast] at hrealize' h₃
  rw [hlast] at hsub
  generalize level.past 0 ([(⟨p.forms, p.decks⟩ : Deck)] ++ decksOfItems ps).length = later at *
  have hheld : ∀ n, n ∈ custody.nodes ++ (later.shown [⟨x.instances, x.slots, none⟩] (d₁.release kept)).held ↔
      n ∈ custody.nodes ∨ n ∈ x.held ∨ n ∈ later.held := fun n => by
    rw [List.mem_append, Level.held_shown, heldBySlots, heldBySlots, List.append_nil, held_slot]
  have hkept' : x.held ⊆ custody.nodes ++ (later.shown [⟨x.instances, x.slots, none⟩] (d₁.release kept)).held :=
    fun n hn => (hheld n).2 (.inr (.inl hn))
  refine ⟨x :: xs, d₂, ⟨hx, hxs⟩, ?_, ?_⟩
  · rw [hitems, hrealize', Level.shown_shown, slotsOfItems_cons hne, results]
    rfl
  · rw [piecesAll, entriesAll, nodesAll]
    refine (h₂.mono (List.append_subset.2 ⟨List.subset_append_left .., List.Subset.trans hsub
      (List.subset_append_right ..)⟩)).append h₃ (fun n hn => (hheld n).2 ?_)
      (fun y hy => List.Subset.trans (pieces_held.1 x y hy) hkept')
      fun e he => List.Subset.trans (entries_held.1 x e he) hkept'
    exact (List.mem_append.1 hn).imp_right .inr

theorem itemsMade_leaves (vs : List Value) : ItemsMadeAnew (vs.map .leaf) := by
  induction vs with
  | nil => exact itemsMade_nil
  | cons v vs ih => exact itemsMade_leaf v ih

theorem made_list {items : List Plan} (h : ItemsMadeAnew items) : MadeAnew (.list items) := by
  intro custody level hlevel
  rw [Plan.forms, Plan.decks] at hlevel
  obtain ⟨xs, d', hxs, hrealize, hmakes⟩ := h custody level hlevel
  refine ⟨.list xs, d', hxs, ?_, ?_⟩
  · rw [Plan.realize, hrealize, result, instances, slots, Plan.forms, Plan.decks]
    rfl
  · rw [pieces, entries, nodes, Plan.forms, Plan.decks]
    exact hmakes

/-- Every plan that fits becomes an exhibit made of new things wherever nothing is found again. -/
theorem made_anew :
    (∀ p : Plan, p.Fits → MadeAnew p) ∧
      ∀ ps : List Plan, (∀ p ∈ ps, p.Fits) → AllMadeAnew ps ∧
        ((∀ p ∈ ps, ∃ space template compiled holes, p = .use space template compiled holes) →
          ItemsMadeAnew ps) := by
  refine Plan.induct ?_ ?_ ?_ ?_ ?_
  · exact fun v _ => made_leaf v
  · intro space template compiled holes ih hfits
    cases hfits with
    | use hc hp hcount hfits hleaves =>
      intro custody level hlevel
      rw [Plan.forms, Plan.decks] at hlevel
      obtain ⟨i, roots, spots, xs, d', hx, huse, hmakes⟩ :=
        made_use hc hp hcount hfits hleaves (ih hfits).1 custody hlevel
      refine ⟨.use i roots spots xs, d', hx, ?_, ?_⟩
      · rw [Plan.realize, huse, result, instances, slots, Plan.forms, Plan.decks]
        rfl
      · rw [Plan.forms, Plan.decks]
        exact hmakes
  · intro items ih hfits
    cases hfits with
    | list hfits huses => exact made_list ((ih hfits).2 huses)
    | @texts v rest => exact made_list (itemsMade_leaves (v :: rest))
  · exact fun _ => ⟨allMade_nil, fun _ => itemsMade_nil⟩
  · intro p ps ihp ihps hfits
    have hp := ihp (hfits p (List.mem_cons_self ..))
    have hps := ihps fun p hp => hfits p (List.mem_cons_of_mem _ hp)
    refine ⟨allMade_cons hp hps.1, fun huses => ?_⟩
    obtain ⟨space, template, compiled, holes, rfl⟩ := huses p (List.mem_cons_self ..)
    exact itemsMade_use hp (hps.2 fun p hp => huses p (List.mem_cons_of_mem _ hp))

/-- Every plan that fits becomes an exhibit wherever nothing has been shown. -/
theorem presented {p : Plan} (hp : p.Fits) (custody : Custody) {level : Level} (hlevel : level.IsNew) :
    ∃ x d', Exhibit.Shows x p ∧ p.realize custody level = ⟨x.result, x.instances, level.shown x.slots d'⟩ ∧
      Document.Makes level.document d' (custody.nodes ++ level.held) x.pieces x.entries x.nodes := by
  obtain ⟨x, d', hx, hrealize, hmakes⟩ := made_anew.1 p hp custody level (hlevel.lacks _ _)
  rw [hlevel.past] at hrealize hmakes
  exact ⟨x, d', hx, hrealize, hmakes⟩

end LiveMarkup
