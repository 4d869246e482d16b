import LiveMarkup.Document.Build
import LiveMarkup.Document.Reconcile
import LiveMarkup.Document.Walk
/-!
# Bindings

A binding connects one hole of an instance with the place in the document that the hole stands for.
It remembers what it has shown last, so that a value that has not changed costs nothing. A value
that the place has no use for leaves a notice and changes nothing.
-/

namespace LiveMarkup

/-- Child content in front of a placeholder. -/
structure ChildBinding where
  placeholder : NodeId
  /-- The text that primitives are shown in. -/
  text : NodeId
  /-- The primitive that the text shows, if it is in use. -/
  shown : Option Value
  entries : List Block
deriving Inhabited

/-- The place that a hole of an instance stands for. -/
inductive Binding where
  | child (content : ChildBinding)
  /-- Leaves the element in the cells given. -/
  | cell (element : NodeId)
  | property (element : NodeId) (name : String) (last : Option Value)
  /-- Keeps one listener for a type of event. -/
  | event (element : NodeId) (type : String) (current : Option ListenerId)
  /-- Keeps one attribute, which is on the element unless the last value was null. -/
  | attr (element : NodeId) (a : AttributeId) (attached : Bool) (last : Option Value)
  | text (element : NodeId) (last : Option Value)
deriving Inhabited

namespace Binding

/-- The type of event that an attribute named `on...` stands for: in small letters if the node has
such a handler, and as written otherwise. -/
def eventType (d : Document) (n : NodeId) (name : List Char) : String :=
  let lower := Text.lowerToAscii name
  String.ofList ((if d.hasHandler n (String.ofList lower) then lower else name).drop 2)

/-- The binding of an attribute hole. -/
def ofAttribute (d : Document) (n : NodeId) (name : String) : Binding × Document :=
  if name = "ref" then (.cell n, d)
  else
    match name.toList with
    | '.' :: rest => (.property n (String.ofList rest) none, d)
    | 'o' :: 'n' :: _ => (.event n (eventType d n name.toList) none, d)
    | _ =>
      let made := d.createAttributeFor n name
      (.attr n made.1 false none, made.2)

/-- The binding of a hole at a node. -/
def ofHole (d : Document) (n : NodeId) (kind : HoleKind) : Binding × Document :=
  match kind with
  | .child =>
    let made := d.create .text ""
    (.child ⟨n, made.1, none, []⟩, made.2)
  | .text => (.text n none, d)
  | .attr name => ofAttribute d n name

/-- The bindings of some holes in content that is below `root`. A hole that leads nowhere has none.
-/
def ofHoles (d : Document) (root : NodeId) : List Hole → List Binding × Document
  | [] => ([], d)
  | hole :: rest =>
    match d.descend? root hole.path with
    | none => ofHoles d root rest
    | some n =>
      let first := ofHole d n hole.kind
      let others := ofHoles first.2 root rest
      (first.1 :: others.1, others.2)

end Binding

namespace ChildBinding

/-- Where the entries of a child hole are: in front of its placeholder. -/
def site (b : ChildBinding) (container : NodeId) : Site Block :=
  { container, before := some b.placeholder, find := fun block access d => d.access block access }

/-- Shows some blocks in place of those before. -/
def showBlocks (b : ChildBinding) (d : Document) (entries : List Block) : ChildBinding × Document :=
  match d.parent? b.placeholder with
  | none => (b, d.note .placeholderDetached)
  | some p =>
    let pass := d.reconcile (b.site p) b.entries entries
    ({ b with entries := pass.result }, pass.document)

/-- Shows a primitive as text. -/
def showPrimitive (b : ChildBinding) (d : Document) (value : Value) : ChildBinding × Document :=
  if b.shown.any (·.isSame value) then (b, d)
  else
    { b with shown := some value }.showBlocks (d.setText b.text (value.text?.getD ""))
      [.single b.text]

/-- The blocks that a node comes to: a fragment stands for its children. -/
def blocksOf (d : Document) (n : NodeId) : List Block :=
  if d.isFragment n then (d.children n).map .single else [.single n]

/-- The blocks that the items of a list come to. Only nodes and blocks can be shown. -/
def blocksOfItems (d : Document) : List Value → List Block × Document
  | [] => ([], d)
  | item :: rest =>
    match item with
    | .block block =>
      let others := blocksOfItems d rest
      (block :: others.1, others.2)
    | .node n =>
      let others := blocksOfItems d rest
      (blocksOf d n ++ others.1, others.2)
    | other => blocksOfItems (d.note (.skippedItem other.shape)) rest

/-- Shows a value. A list that starts with a primitive is shown as one text. -/
def update (b : ChildBinding) (d : Document) (value : Value) : ChildBinding × Document :=
  match value with
  | .null => { b with shown := none }.showBlocks d []
  | .bool _ | .number _ | .string _ => b.showPrimitive d value
  | .node n => { b with shown := none }.showBlocks d (blocksOf d n)
  | .block block => { b with shown := none }.showBlocks d [block]
  | .list [] => { b with shown := none }.showBlocks d []
  | .list (item :: rest) =>
    if item.isPrimitive then
      match value.text? with
      | some joined => b.showPrimitive d (.string joined)
      | none => (b, d.note .mixedList)
    else
      let blocks := blocksOfItems d (item :: rest)
      { b with shown := none }.showBlocks blocks.2 blocks.1
  | .invocation .. | .listener _ | .cell _ | .object _ => (b, d)

end ChildBinding

namespace Binding

/-- Leaves an element in a cell. -/
def updateCell (element : NodeId) (d : Document) : Value → Document
  | .cell c => d.setCell c element
  | .null => d
  | other => d.note (.cellExpected other.shape)

/-- Puts a listener in the place of the current one, or takes that away. -/
def exchangeListener (element : NodeId) (type : String) (current next : Option ListenerId)
    (d : Document) : Document :=
  let d := match current with
    | some listener => d.removeListener element type listener
    | none => d
  match next with
  | some listener => d.addListener element type listener
  | none => d

/-- The listener that a value asks for: one, none, or nothing that can be followed. -/
def listener? : Value → Option (Option ListenerId)
  | .listener listener => some (some listener)
  | .null => some none
  | _ => none

/-- Brings the place of a binding up to date with a value. -/
def update (b : Binding) (d : Document) (value : Value) : Binding × Document :=
  match b with
  | .child content =>
    let updated := content.update d value
    (.child updated.1, updated.2)
  | .cell element => (b, updateCell element d value)
  | .property element name last =>
    if last.any (·.isSame value) then (b, d)
    else (.property element name (some value), d.setProperty element name value)
  | .event element type current =>
    match listener? value with
    | none => (b, d.note (.listenerExpected type value.shape))
    | some next =>
      if current = next then (b, d)
      else (.event element type next, exchangeListener element type current next d)
  | .attr element a attached last =>
    if last.any (·.isSame value) then (b, d)
    else if value.isNull then
      (.attr element a false (some value), if attached then d.takeAttribute element a else d)
    else
      match value.text? with
      | none => (b, d.note (.noAttributeText value.shape))
      | some t =>
        let d := d.setAttributeValue a t
        (.attr element a true (some value), if attached then d else d.putAttribute element a)
  | .text element last =>
    if last.any (·.isSame value) then (b, d)
    else
      match value.text? with
      | none => (b, d.note (.noContentText value.shape))
      | some t => (.text element (some value), d.setText element t)

end Binding

end LiveMarkup
