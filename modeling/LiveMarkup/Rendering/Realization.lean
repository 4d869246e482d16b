import LiveMarkup.Rendering.Lifetime
import LiveMarkup.Rendering.Plan
/-!
# Realizing a plan

A plan is shown with the help of a cache. An invocation and those nested in it directly take the
instances of the cache in the order in which they are met; an invocation that is an item of a list
takes the next slot. An instance is reused if the template at its position is the same as before,
and made anew otherwise. What a plan no longer needs is dropped from the end. Whatever is dropped is
let go of at once, so that what comes later no longer finds nodes in places that nothing holds.
-/

namespace LiveMarkup

open Markup (Namespace)

/-- A level of a cache while a plan is shown: the instances and slots of the last time that are
still to come, the slots used so far, last one first, and the document. -/
structure Level where
  oldInstances : List Instance
  oldSlots : List Cache
  newSlots : List Cache
  document : Document

/-- A result with the instances that it took, in order, and the level behind it. -/
structure Realized (α : Type) where
  result : α
  instances : List Instance
  level : Level

namespace Level

/-- The nodes that a level holds. -/
def held (level : Level) : List NodeId :=
  level.oldInstances.flatMap Instance.held ++ heldBySlots level.oldSlots
    ++ heldBySlots level.newSlots

/-- Lets go of all that is held neither by the level nor from outside nor by what is under way. -/
def release (level : Level) (custody : Custody) (underWay : List NodeId) : Level :=
  { level with document := level.document.release (custody.holding (underWay ++ level.held)) }

/-- The instance at the next position, which is made if there is none. -/
def take (level : Level) (space : Namespace) (template : Template) (compiled : Compiled) :
    Instance × Level :=
  match level.oldInstances with
  | i :: rest => (i, { level with oldInstances := rest })
  | [] =>
    let made := Instance.create level.document space template compiled
    (made.1, { level with document := made.2 })

/-- The cache of the next list item. -/
def takeSlot (level : Level) : Cache × Level :=
  match level.oldSlots with
  | slot :: rest => (slot, { level with oldSlots := rest })
  | [] => (.empty, level)

/-- An instance for a template: the one given if it was made for it, or a new one in its place. -/
def fit (level : Level) (custody : Custody) (i : Instance) (space : Namespace) (template : Template)
    (compiled : Compiled) : Instance × Level :=
  if i.isOf space template then (i, level)
  else
    let made := Instance.create level.document space template compiled
    (made.1, { level with document := made.2 }.release custody made.1.held)

/-- Brings bindings up to date one after another, each with its value. -/
def fill (level : Level) (custody : Custody) : List Binding → List Value → List Binding × Level
  | b :: bindings, value :: values =>
    let updated := b.update level.document value
    let level := { level with document := updated.2 }.release custody
      (updated.1.held ++ bindings.flatMap Binding.held)
    let others := fill level (custody.holding updated.1.held) bindings values
    (updated.1 :: others.1, others.2)
  | bindings, _ => (bindings, level)

/-- Shows a use of a template: takes the instance at the next position, then shows what is nested in
the holes, and last brings the instance up to date, making it anew if it was made for another
template. -/
def use (level : Level) (custody : Custody) (space : Namespace) (template : Template)
    (compiled : Compiled) (holes : Custody → Level → Realized (List Value)) : Realized Block :=
  let taken := level.take space template compiled
  let inner := holes (custody.holding taken.1.held) taken.2
  let custody := custody.holding (inner.instances.flatMap Instance.held)
  let fitted := inner.level.fit custody taken.1 space template compiled
  let filled := fitted.2.fill (custody.holding fitted.1.block.held) fitted.1.bindings inner.result
  ⟨fitted.1.block, { fitted.1 with bindings := filled.1 } :: inner.instances, filled.2⟩

/-- The cache that remains of a level when all of its plan has been shown, with the instances that
the plan took; what else there was on the level is let go. -/
def close (level : Level) (custody : Custody) (instances : List Instance) (root : Option Block) :
    Cache × Document :=
  let cache : Cache := ⟨instances, level.newSlots.reverse, root⟩
  (cache, level.document.release (custody.holding cache.held))

end Level

mutual

/-- Shows a plan on a level, and gives the value that stands for it: the block of its instance for
an invocation. -/
def Plan.realize (custody : Custody) (level : Level) : Plan → Realized Value
  | .leaf value => ⟨value, [], level⟩
  | .use space template compiled holes =>
    let used := level.use custody space template compiled fun custody level =>
      realizeAll custody level holes
    ⟨.block used.result, used.instances, used.level⟩
  | .list items =>
    let inner := realizeItems custody level items
    ⟨.list inner.result, [], inner.level⟩

/-- Shows the plans of some holes one after another. -/
def realizeAll (custody : Custody) (level : Level) : List Plan → Realized (List Value)
  | [] => ⟨[], [], level⟩
  | plan :: rest =>
    let first := plan.realize custody level
    let custody := custody.holding (first.instances.flatMap Instance.held)
    let others := realizeAll custody first.level rest
    ⟨first.result :: others.result, first.instances ++ others.instances, others.level⟩

/-- Shows the items of a list, each in a slot of its own. -/
def realizeItems (custody : Custody) (level : Level) : List Plan → Realized (List Value)
  | [] => ⟨[], [], level⟩
  | .leaf value :: rest =>
    let others := realizeItems custody level rest
    ⟨value :: others.result, [], others.level⟩
  | plan :: rest =>
    let slot := level.takeSlot
    let outside := custody.holding slot.2.held
    let inner := plan.realize outside ⟨slot.1.instances, slot.1.slots, [], slot.2.document⟩
    let closed := inner.level.close outside inner.instances slot.1.root
    let others := realizeItems custody
      { slot.2 with newSlots := closed.1 :: slot.2.newSlots, document := closed.2 } rest
    ⟨inner.result :: others.result, [], others.level⟩

end

/-- Shows a use of a template with the help of a cache: the block that stands for it, the cache for
the next time, and the document. -/
def Cache.realize (cache : Cache) (custody : Custody) (d : Document) (use : Use) :
    Block × Cache × Document :=
  let custody := custody.holding (cache.root.elim [] Block.held)
  let done := Level.use ⟨cache.instances, cache.slots, [], d⟩ custody use.space use.template
    use.compiled fun custody level => realizeAll custody level use.holes
  (done.result, done.level.close custody done.instances cache.root)

end LiveMarkup
