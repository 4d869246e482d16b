import LiveMarkup.Document.Basic
import LiveMarkup.Text.Casing
/-!
# Attributes, properties and listeners

An attribute is on at most one element. Putting it on an element displaces an attribute of the same
name, which is then on none. Names on HTML elements are in small letters.
-/

namespace LiveMarkup.Document

/-- An attribute name as it is spelled on a node. -/
def spelled (d : Document) (n : NodeId) (name : String) : String :=
  match d.kind n with
  | .element _ .svg => name
  | _ => Text.lowerString name

/-- The attribute of a name that is on a node. -/
def attributeOf? (d : Document) (n : NodeId) (name : String) : Option AttributeId :=
  let name := d.spelled n name
  (d.node n).attributes.find? fun a => (d.attr a).name == name

/-- The value of the attribute of a name. -/
def attributeValue? (d : Document) (n : NodeId) (name : String) : Option String :=
  (d.attributeOf? n name).map fun a => (d.attr a).value

/-- The names and values of the attributes on a node, in order. -/
def attributePairs (d : Document) (n : NodeId) : List (String × String) :=
  (d.node n).attributes.map fun a => ((d.attr a).name, (d.attr a).value)

/-- Makes an attribute that is on no element, with an empty value. -/
def createAttribute (d : Document) (name : String) : AttributeId × Document :=
  (⟨d.attributes.size⟩,
    { d with attributes := d.attributes.push { name, value := "", owner := none } })

/-- Makes an attribute for a node, with the name spelled as on that node. -/
def createAttributeFor (d : Document) (n : NodeId) (name : String) : AttributeId × Document :=
  d.createAttribute (d.spelled n name)

/-- Gives a node that has just been made an attribute, without counting it as a change. -/
def giveAttribute (d : Document) (n : NodeId) (name value : String) : Document :=
  let a : AttributeId := ⟨d.attributes.size⟩
  { d with attributes := d.attributes.push { name, value, owner := some n } }.update n
    fun r => { r with attributes := r.attributes ++ [a] }

/-- Changes the value of an attribute. -/
def setAttributeValue (d : Document) (a : AttributeId) (value : String) : Document :=
  d.count.updateAttribute a fun r => { r with value }

/-- Puts an attribute on a node in the place of the one of the same name, or behind all others. -/
def placeAttribute (d : Document) (n : NodeId) (a : AttributeId) : Document :=
  let d := d.count
  let d :=
    match (d.node n).attributes.find? fun b => (d.attr b).name == (d.attr a).name with
    | some b =>
      (d.update n fun r =>
        { r with attributes := r.attributes.map fun c => if c = b then a else c }).updateAttribute b
          fun r => { r with owner := none }
    | none => d.update n fun r => { r with attributes := r.attributes ++ [a] }
  d.updateAttribute a fun r => { r with owner := some n }

/-- Puts an attribute on an element, unless it is on one already. -/
def putAttribute (d : Document) (n : NodeId) (a : AttributeId) : Document :=
  if d.isElement n then
    match (d.attr a).owner with
    | none => d.placeAttribute n a
    | some owner =>
      if owner = n then d else d.note (.attributeInUse (d.sketchAttribute a) (d.sketch owner))
  else d.note (.attributeOnNonElement (d.sketch n))

/-- Takes an attribute off the element that it is on. -/
def takeAttribute (d : Document) (n : NodeId) (a : AttributeId) : Document :=
  if (d.node n).attributes.contains a then
    (d.count.update n fun r => { r with attributes := r.attributes.erase a }).updateAttribute a
      fun r => { r with owner := none }
  else d.note (.attributeNotSet (d.sketchAttribute a))

/-- Gives the attribute of a name a value; makes it if it is missing. -/
def setAttribute (d : Document) (n : NodeId) (name value : String) : Document :=
  match d.attributeOf? n name with
  | some a => d.setAttributeValue a value
  | none =>
    let made := d.createAttributeFor n name
    (made.2.setAttributeValue made.1 value).putAttribute n made.1

/-- Takes the attribute of a name off a node. -/
def removeAttribute (d : Document) (n : NodeId) (name : String) : Document :=
  match d.attributeOf? n name with
  | some a => d.takeAttribute n a
  | none => d

/-- The value of a property. -/
def property? (d : Document) (n : NodeId) (name : String) : Option Value :=
  (d.node n).properties.lookup name

/-- Gives a property a value. -/
def setProperty (d : Document) (n : NodeId) (name : String) (value : Value) : Document :=
  d.count.update n fun r =>
    { r with properties := (name, value) :: r.properties.filter (·.1 != name) }

/-- The event handler properties of elements. -/
def handlerNames : List String :=
  ["onabort", "onblur", "onchange", "onclick", "oncontextmenu", "ondblclick", "ondrag",
    "ondragend", "ondragenter", "ondragleave", "ondragover", "ondragstart", "ondrop", "onerror",
    "onfocus", "onfocusin", "onfocusout", "oninput", "oninvalid", "onkeydown", "onkeypress",
    "onkeyup", "onload", "onmousedown", "onmouseenter", "onmouseleave", "onmousemove",
    "onmouseout", "onmouseover", "onmouseup", "onpointercancel", "onpointerdown",
    "onpointerenter", "onpointerleave", "onpointermove", "onpointerout", "onpointerover",
    "onpointerup", "onreset", "onresize", "onscroll", "onselect", "onsubmit", "ontouchcancel",
    "ontouchend", "ontouchmove", "ontouchstart", "onwheel"]

/-- Whether a node has an event handler property of a name. -/
def hasHandler (d : Document) (n : NodeId) (name : String) : Bool :=
  d.isElement n && handlerNames.contains name

/-- The listeners of a node for a type of event, in the order in which they were added. -/
def listenersFor (d : Document) (n : NodeId) (type : String) : List ListenerId :=
  ((d.node n).listeners.filter (·.1 == type)).map (·.2)

/-- Adds a listener behind all others, unless it is there for this type already. -/
def addListener (d : Document) (n : NodeId) (type : String) (listener : ListenerId) : Document :=
  if (d.node n).listeners.contains (type, listener) then d
  else d.count.update n fun r => { r with listeners := r.listeners ++ [(type, listener)] }

/-- Takes a listener away, if it is there for this type. -/
def removeListener (d : Document) (n : NodeId) (type : String) (listener : ListenerId) : Document :=
  if (d.node n).listeners.contains (type, listener) then
    d.count.update n fun r => { r with listeners := r.listeners.erase (type, listener) }
  else d

end LiveMarkup.Document
