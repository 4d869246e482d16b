import LiveMarkup.Proofs.Rendering.Origin
import LiveMarkup.Proofs.Rendering.Resolution
import LiveMarkup.Rendering.Renderer
/-!
# Planning finds all failures

A value could also be shown without a plan: `Value.unroll` goes through the value itself, compiles a
template each time an instance of it is made, and stops with a failure if that does not compile or if a
hole does not lead to a node. By then it would have changed the instances it has come by. This never
happens to a value that has a plan: it is shown in full, no template has to be compiled any more, and the
outcome is that of showing the plan (`Cache.yields_unroll`). So a value is either rendered or refused
before anything is touched (`Renderer.IsAtomic`).
-/

namespace LiveMarkup

open Markup (Namespace)

/-- Steps that may fail, with the templates compiled so far. -/
abbrev Attempt :=
  ExceptT Failure (StateM Catalogue)

/-! ### Showing a value without a plan -/

/-- The compiled template, made when it is first asked for. -/
def Attempt.compile (space : Namespace) (template : Template) : Attempt Compiled :=
  ExceptT.mk fun c => c.compile space template

/-- The bindings of some holes, if all of them lead to nodes below `root`. -/
def Binding.ofHoles? (d : Document) (root : NodeId) : List Hole → Option (List Binding × Document)
  | [] => some ([], d)
  | hole :: rest =>
    match d.descend? root hole.path with
    | none => none
    | some n =>
      let first := ofHole d n hole.kind
      (ofHoles? first.2 root rest).map fun others => (first.1 :: others.1, others.2)

/-- Makes an instance of a template. -/
def Instance.attempt (d : Document) (space : Namespace) (template : Template) :
    Attempt (Instance × Document) := do
  let compiled ← Attempt.compile space template
  let fragment := d.createFragment compiled.content
  match Binding.ofHoles? fragment.2 fragment.1 compiled.holes with
  | none =>
    throw (.markersLost (Template.markHoles template.segments) compiled.holes.length 0)
  | some bound =>
    let block := bound.2.blockOfOwn fragment.1
    return (⟨space, template, block.1, bound.1⟩, block.2)

namespace Level

/-- The instance at the next position, which is made if there is none. -/
def attemptTake (level : Level) (space : Namespace) (template : Template) :
    Attempt (Instance × Level) :=
  match level.oldInstances with
  | i :: rest => return (i, { level with oldInstances := rest })
  | [] => do
    let made ← Instance.attempt level.document space template
    return (made.1, { level with document := made.2 })

/-- An instance for a template: the one given if it was made for it, or a new one in its place. -/
def attemptFit (level : Level) (custody : Custody) (i : Instance) (space : Namespace)
    (template : Template) : Attempt (Instance × Level) :=
  if i.isOf space template then return (i, level)
  else do
    let made ← Instance.attempt level.document space template
    return (made.1, { level with document := made.2 }.release custody made.1.held)

/-- Shows a use of a template. -/
def attemptUse (level : Level) (custody : Custody) (space : Namespace) (template : Template)
    (holes : Custody → Level → Attempt (Realized (List Value))) : Attempt (Realized Block) := do
  let taken ← level.attemptTake space template
  let inner ← holes (custody.holding taken.1.held) taken.2
  let custody := custody.holding (inner.instances.flatMap Instance.held)
  let fitted ← inner.level.attemptFit custody taken.1 space template
  let filled := fitted.2.fill (custody.holding fitted.1.block.held) fitted.1.bindings inner.result
  return ⟨fitted.1.block, { fitted.1 with bindings := filled.1 } :: inner.instances, filled.2⟩

end Level

mutual

/-- Shows a value on a level, and gives the value that stands for it. -/
def Value.unroll (custody : Custody) (level : Level) : Value → Attempt (Realized Value)
  | .invocation space template values => do
    let used ← level.attemptUse custody space template fun custody level =>
      unrollAll custody level values
    return ⟨.block used.result, used.instances, used.level⟩
  | .list items => do
    let inner ← unrollItems custody level items
    return ⟨.list inner.result, [], inner.level⟩
  | v => return ⟨v, [], level⟩

/-- Shows the values of some holes one after another. -/
def unrollAll (custody : Custody) (level : Level) : List Value → Attempt (Realized (List Value))
  | [] => return ⟨[], [], level⟩
  | v :: rest => do
    let first ← v.unroll custody level
    let custody := custody.holding (first.instances.flatMap Instance.held)
    let others ← unrollAll custody first.level rest
    return ⟨first.result :: others.result, first.instances ++ others.instances, others.level⟩

/-- Shows the items of a list, each invocation in a slot of its own. -/
def unrollItems (custody : Custody) (level : Level) : List Value → Attempt (Realized (List Value))
  | [] => return ⟨[], [], level⟩
  | v :: rest =>
    if v.shape = .invocation then do
      let slot := level.takeSlot
      let outside := custody.holding slot.2.held
      let inner ← v.unroll outside ⟨slot.1.instances, slot.1.slots, [], slot.2.document⟩
      let closed := inner.level.close outside inner.instances slot.1.root
      let others ← unrollItems custody
        { slot.2 with newSlots := closed.1 :: slot.2.newSlots, document := closed.2 } rest
      return ⟨inner.result :: others.result, [], others.level⟩
    else do
      let others ← unrollItems custody level rest
      return ⟨v :: others.result, [], others.level⟩

end

/-- Shows an invocation with the help of a cache: the block that stands for it, the cache for the next
time, and the document. -/
def Cache.unroll (cache : Cache) (custody : Custody) (d : Document) (space : Namespace)
    (template : Template) (values : List Value) : Attempt (Block × Cache × Document) := do
  let custody := custody.holding (cache.root.elim [] Block.held)
  let done ← Level.attemptUse ⟨cache.instances, cache.slots, [], d⟩ custody space template
    fun custody level => unrollAll custody level values
  return (done.result, done.level.close custody done.instances cache.root)

/-! ### It never stops halfway -/

namespace Attempt

variable {α β : Type} {x : Attempt α} {f : α → Attempt β} {c : Catalogue} {a : α} {b : β}

/-- An attempt succeeds without compiling anything new. -/
def Yields (x : Attempt α) (c : Catalogue) (a : α) : Prop :=
  x.run.run c = (.ok a, c)

theorem yields_return (a : α) (c : Catalogue) : (return a : Attempt α).Yields c a :=
  rfl

/-- What follows a step that succeeds goes on with what that has compiled. -/
theorem run_bind {c' : Catalogue} (h : x.run.run c = (.ok a, c')) :
    (x >>= f).run.run c = (f a).run.run c' := by
  rw [ExceptT.run_bind, StateT.run_bind, h]
  rfl

theorem Yields.bind (h : x.Yields c a) (h' : (f a).Yields c b) : (x >>= f).Yields c b :=
  (run_bind h).trans h'

theorem yields_compile {space : Namespace} {template : Template} {compiled : Compiled}
    (h : c.entries.lookup (space, template) = some compiled) :
    (compile space template).Yields c compiled := by
  show c.compile space template = _
  rw [Catalogue.compile, h]

end Attempt

open Attempt (yields_return yields_compile)

theorem Binding.ofHoles?_eq {d : Document} {root : NodeId} {holes : List Hole}
    (h : d.Leads root holes) : ofHoles? d root holes = some (ofHoles d root holes) := by
  induction holes generalizing d with
  | nil => rfl
  | cons hole rest ih =>
    obtain ⟨n, hn⟩ := h hole (List.mem_cons_self ..)
    have hrest : d.Leads root rest := fun hole hmem => h hole (List.mem_cons_of_mem _ hmem)
    rw [ofHoles?, ofHoles, hn]
    dsimp only
    rw [ih (hrest.of_prepares (Document.prepares_ofHole d n hole.kind))]
    rfl

section

variable {c : Catalogue} {space : Namespace} {template : Template} {compiled : Compiled}

/-- If its template compiles, an instance is made: all holes lead to nodes of the new fragment. -/
theorem Instance.run_attempt {c' : Catalogue} (hc : c.Sound)
    (h : c.compile space template = (.ok compiled, c')) (d : Document) :
    (attempt d space template).run.run c = (.ok (create d space template compiled), c') := by
  have hsound : c'.Sound := by
    have hextends := c.extends_compile space template
    rw [h] at hextends
    exact hextends.sound hc
  have hcoherent := template.coherent_compilation space
  rw [← (hsound space template compiled (Catalogue.lookup_compile h)).2] at hcoherent
  have hcompile : (Attempt.compile space template).run.run c = (.ok compiled, c') := h
  rw [attempt, Attempt.run_bind hcompile]
  dsimp only
  rw [Binding.ofHoles?_eq (Document.leads_createFragment d hcoherent)]
  rfl

theorem Instance.yields_attempt (hc : c.Sound)
    (hk : c.entries.lookup (space, template) = some compiled) (d : Document) :
    (attempt d space template).Yields c (create d space template compiled) :=
  run_attempt hc (Attempt.yields_compile hk) d

theorem Level.yields_take (hc : c.Sound)
    (hk : c.entries.lookup (space, template) = some compiled) (level : Level) :
    (level.attemptTake space template).Yields c (level.take space template compiled) := by
  rw [attemptTake, take]
  cases level.oldInstances with
  | nil => exact (Instance.yields_attempt hc hk level.document).bind (yields_return _ c)
  | cons i rest => exact yields_return _ c

theorem Level.yields_fit (hc : c.Sound)
    (hk : c.entries.lookup (space, template) = some compiled) (level : Level) (custody : Custody)
    (i : Instance) :
    (level.attemptFit custody i space template).Yields c
      (level.fit custody i space template compiled) := by
  unfold attemptFit fit
  split
  · exact yields_return _ c
  · exact (Instance.yields_attempt hc hk level.document).bind (yields_return _ c)

theorem Level.yields_use (hc : c.Sound)
    (hk : c.entries.lookup (space, template) = some compiled)
    {attempt : Custody → Level → Attempt (Realized (List Value))}
    {holes : Custody → Level → Realized (List Value)}
    (h : ∀ custody level, (attempt custody level).Yields c (holes custody level)) (level : Level)
    (custody : Custody) :
    (level.attemptUse custody space template attempt).Yields c
      (level.use custody space template compiled holes) :=
  (yields_take hc hk level).bind ((h _ _).bind ((yields_fit hc hk _ _ _).bind (yields_return _ c)))

end

/-- Showing a value and showing the plan for it come to the same, and nothing is compiled. -/
theorem yields_unroll {c : Catalogue} (hc : c.Sound) :
    (∀ {v p}, c.Resolves v p → ∀ custody level,
      (v.unroll custody level).Yields c (p.realize custody level)) ∧
      (∀ {vs ps}, c.ResolvesAll vs ps → ∀ custody level,
        (unrollAll custody level vs).Yields c (realizeAll custody level ps)) ∧
      ∀ {vs ps}, c.ResolvesItems vs ps → ∀ custody level,
        (unrollItems custody level vs).Yields c (realizeItems custody level ps) := by
  refine Catalogue.resolves_induct ?_ ?_ ?_ ?_ ?_ ?_ ?_ ?_
  · intro v hv custody level
    rw [Value.unroll]
    · exact yields_return _ c
    · exact hv.ne_invocation
    · exact hv.ne_list
  · intro space template compiled values plans hk _ ih custody level
    rw [Value.unroll]
    exact (Level.yields_use hc hk ih level custody).bind (yields_return _ c)
  · intro values plans ih custody level
    rw [Value.unroll]
    exact (ih custody level).bind (yields_return _ c)
  · exact fun custody level => yields_return _ c
  · intro v vs p ps ih ih' custody level
    rw [unrollAll]
    exact (ih _ _).bind ((ih' _ _).bind (yields_return _ c))
  · exact fun custody level => yields_return _ c
  · intro v vs ps hv ih custody level
    rw [unrollItems, if_neg (Value.shape_eq_invocation.not.2 hv)]
    exact (ih _ _).bind (yields_return _ c)
  · intro space template compiled values plans vs ps ih ih' custody level
    have hshape : (Value.invocation space template values).shape = .invocation := rfl
    rw [unrollItems, if_pos hshape]
    exact (ih _ _).bind ((ih' _ _).bind (yields_return _ c))

theorem Cache.yields_unroll {c : Catalogue} (hc : c.Sound) {space : Namespace} {template : Template}
    {values : List Value} {use : Use}
    (h : c.Resolves (.invocation space template values)
      (.use use.space use.template use.compiled use.holes))
    (cache : Cache) (custody : Custody) (d : Document) :
    (cache.unroll custody d space template values).Yields c (cache.realize custody d use) := by
  cases use with
  | mk space' template' compiled holes =>
    cases h with
    | use known _ hholes =>
      exact (Level.yields_use hc known ((LiveMarkup.yields_unroll hc).2.1 hholes) _ _).bind
        (yields_return _ c)

/-! ### Failures -/

/-- Values that can be rendered into a container: nodes, blocks and usable invocations. -/
def Value.Renderable : Value → Prop
  | .node _ | .block _ => True
  | .invocation space template values => (Value.invocation space template values).Usable
  | _ => False

namespace Renderer

variable {r : Renderer} {α : Type}

/-- An operation succeeds in one case exactly, and otherwise leaves all as it was but for templates that
have been compiled. -/
def IsAtomic (r : Renderer) (result : Except Failure α × Renderer) (accepted : Prop) : Prop :=
  ((∃ a, result.1 = .ok a) ↔ accepted) ∧
    ∀ e, result.1 = .error e →
      ∃ catalogue, r.catalogue.Extends catalogue ∧ result.2 = { r with catalogue }

theorem IsAtomic.ok {r' : Renderer} {a : α} {accepted : Prop} (h : accepted) :
    r.IsAtomic (.ok a, r') accepted :=
  ⟨⟨fun _ => h, fun _ => ⟨a, rfl⟩⟩, fun e he => by cases he⟩

theorem IsAtomic.error {e : Failure} {catalogue : Catalogue} {accepted : Prop} (h : ¬ accepted)
    (hc : r.catalogue.Extends catalogue) :
    r.IsAtomic (α := α) (.error e, { r with catalogue }) accepted :=
  ⟨⟨fun ⟨_, ha⟩ => (by cases ha), fun ha => absurd ha h⟩, fun _ _ => ⟨catalogue, hc, rfl⟩⟩

/-- Planning decides whether a use is shown. -/
theorem isAtomic_of_plan (hc : r.catalogue.Sound) {space : Namespace} {template : Template}
    {values : List Value} {result : Except Failure α × Renderer}
    (herror : ∀ e catalogue, r.catalogue.planUse space template values = (.error e, catalogue) →
      result = (.error e, { r with catalogue }))
    (hok : ∀ use catalogue, r.catalogue.planUse space template values = (.ok use, catalogue) →
      ∃ a r', result = (.ok a, r')) :
    r.IsAtomic result (Value.invocation space template values).Usable := by
  have hiff := Catalogue.planUse_isOk hc space template values
  have hextends := r.catalogue.extends_planUse space template values
  generalize hplan : r.catalogue.planUse space template values = planned at hiff hextends
  obtain ⟨e | use, catalogue⟩ := planned
  · rw [herror e catalogue hplan]
    exact .error (fun h => by obtain ⟨_, h⟩ := hiff.2 h; cases h) hextends
  · obtain ⟨a, r', h⟩ := hok use catalogue hplan
    rw [h]
    exact .ok (hiff.1 ⟨use, rfl⟩)

theorem isAtomic_render (hc : r.catalogue.Sound) (container : NodeId) (value : Value) :
    r.IsAtomic (r.render container value) value.Renderable := by
  cases value with
  | invocation space template values =>
    refine isAtomic_of_plan hc (fun e catalogue h => ?_) fun use catalogue h => ?_ <;>
      rw [render, h]
    exact ⟨_, _, rfl⟩
  | node n => exact .ok trivial
  | block block => exact .ok trivial
  | _ => exact .error id (.refl _)

theorem isAtomic_renderDetached (hc : r.catalogue.Sound) (id : CacheId) (space : Namespace)
    (template : Template) (values : List Value) :
    r.IsAtomic (r.renderDetached id space template values)
      (Value.invocation space template values).Usable := by
  refine isAtomic_of_plan hc (fun e catalogue h => ?_) fun use catalogue h => ?_ <;>
    rw [renderDetached, showWith, h]
  exact ⟨_, _, rfl⟩

theorem isAtomic_instantiate (hc : r.catalogue.Sound) (space : Namespace) (template : Template)
    (values : List Value) :
    r.IsAtomic (r.instantiate space template values)
      (Value.invocation space template values).Usable := by
  refine isAtomic_of_plan hc (fun e catalogue h => ?_) fun use catalogue h => ?_ <;>
    rw [instantiate, showWith, h]
  exact ⟨_, _, rfl⟩

end Renderer

end LiveMarkup
