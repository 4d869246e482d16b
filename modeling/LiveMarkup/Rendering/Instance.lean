import LiveMarkup.Rendering.Binding
import LiveMarkup.Template.Compiled
/-!
# Instances and caches

An instance is one use of a template in a document. A cache keeps the instances made for one place,
so that the next value shown there can reuse them: one list for an invocation and those nested in it
directly, and a slot with a cache of its own for each invocation that is an item of a list.
-/

namespace LiveMarkup

open Markup (Namespace)

/-- A use of a template: the nodes made from its content, and the bindings of its holes. -/
structure Instance where
  space : Namespace
  template : Template
  block : Block
  bindings : List Binding
deriving Inhabited

namespace Instance

/-- Makes an instance of a compiled template. -/
def create (d : Document) (space : Namespace) (template : Template) (compiled : Compiled) :
    Instance × Document :=
  let fragment := d.createFragment compiled.content
  let bound := Binding.ofHoles fragment.2 fragment.1 compiled.holes
  let block := bound.2.blockOfOwn fragment.1
  (⟨space, template, block.1, bound.1⟩, block.2)

/-- Whether an instance was made for a template. -/
def isOf (i : Instance) (space : Namespace) (template : Template) : Bool :=
  i.space == space && i.template == template

end Instance

/-- The instances of one level by position, the caches of its list items, and what was mounted last.
-/
structure Cache where
  instances : List Instance
  slots : List Cache
  root : Option Block
deriving Inhabited

/-- A cache for a place where nothing has been shown. -/
def Cache.empty : Cache :=
  ⟨[], [], none⟩

end LiveMarkup
