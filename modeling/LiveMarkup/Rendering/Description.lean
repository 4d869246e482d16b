import LiveMarkup.Rendering.Renderer
/-!
# Descriptions

Short texts about nodes, values and caches for people who look for a mistake. Of strings they give
the size only, of objects that are told apart by their address nothing but that there is one.
-/

namespace LiveMarkup

/-- Texts in square brackets. -/
def inBrackets (items : List String) : String :=
  "[" ++ String.intercalate ", " items ++ "]"

/-- A text that may be missing. -/
def describeOption (text : Option String) : String :=
  match text with
  | none => "None"
  | some text => "Some(" ++ text ++ ")"

namespace Document

/-- A node in words. -/
def describeNode (d : Document) (n : NodeId) : String :=
  (d.sketch n).describe

/-- A block in words. -/
def describeBlock (d : Document) : Block → String
  | .single n => "Wire::Node(" ++ d.describeNode n ++ ")"
  | .group g => "Wire::Group \x7b nodes.len(): " ++ toString g.members.length ++ " \x7d"

/-- A namespace in words. -/
def describeSpace : Markup.Namespace → String
  | .html => "Html"
  | .svg => "Svg"

mutual

/-- A value in words. -/
def describeValue (d : Document) : Value → String
  | .null => "Null"
  | .bool b => "Bool(" ++ (if b then "true" else "false") ++ ")"
  | .number x => "Number(" ++ Layout.described.write x ++ ")"
  | .string s => "Str(<" ++ toString s.utf8ByteSize ++ " byte(s)>)"
  | .node n => "Node(" ++ d.describeNode n ++ ")"
  | .block b => "Wire(" ++ d.describeBlock b ++ ")"
  | .list items => "List(" ++ inBrackets (describeValues d items) ++ ")"
  | .invocation space template values =>
    "Hole(Hole \x7b kind: " ++ describeSpace space
      ++ ", template: Template \x7b address: 0x_, segments.len(): "
      ++ toString template.segments.length ++ " \x7d, values: "
      ++ inBrackets (describeValues d values) ++ " \x7d)"
  | .listener _ => "Listener(Listener(0x_))"
  | .cell c => "Ref(NodeRef(" ++ describeOption ((d.cell? c).map d.describeNode) ++ "))"
  | .object _ => "Opaque(..)"

/-- Some values in words. -/
def describeValues (d : Document) : List Value → List String
  | [] => []
  | value :: rest => describeValue d value :: describeValues d rest

end

/-- A cache that belongs to no container in words. -/
def describeCache (d : Document) (cache : Cache) : String :=
  "Fixed(RenderInfo \x7b stack.len(): " ++ toString cache.instances.length ++ ", sub.len(): "
    ++ toString cache.slots.length ++ ", wire: " ++ describeOption (cache.root.map d.describeBlock)
    ++ " \x7d)"

/-- An attribute in words. -/
def describeAttribute (d : Document) (a : AttributeId) : String :=
  (d.sketchAttribute a).describe

end Document

/-- The kind of a hole in words. -/
def HoleKind.describe : HoleKind → String
  | child => "Node"
  | attr name => "Attribute(" ++ Text.quoted name ++ ")"
  | text => "Text"

/-- A hole in words. -/
def Hole.describe (hole : Hole) : String :=
  "HoleDescriptor \x7b kind: " ++ hole.kind.describe ++ ", path: "
    ++ inBrackets (hole.path.map toString) ++ " \x7d"

/-- A compiled template in words. -/
def Compiled.describe (c : Compiled) : String :=
  "CompiledTemplate \x7b content: " ++ (Sketch.fragment c.content.length).describe ++ ", holes: "
    ++ inBrackets (c.holes.map Hole.describe) ++ " \x7d"

end LiveMarkup
