import LiveMarkup.Markup.Reference
import LiveMarkup.Markup.Vocabulary
/-!
# Writing markup

Elements are written with all attributes in double quotes and an end tag, except that void elements
have neither content nor end tag. Text is written with character references, except directly inside
an element whose content is verbatim.
-/

namespace LiveMarkup.Markup

/-- One attribute as it is written inside a start tag, with the blank in front. -/
def writeAttribute (a : String × String) : List Char :=
  ' ' :: a.1.toList ++ ['=', '"'] ++ Reference.encode .quoted a.2.toList ++ ['"']

/-- A start tag. -/
def Tag.write (tag : Tag) : List Char :=
  '<' :: tag.name.toList ++ tag.attributes.flatMap writeAttribute ++ ['>']

/-- The end tag of an element. -/
def Tag.writeEnd (tag : Tag) : List Char :=
  '<' :: '/' :: tag.name.toList ++ ['>']

/-- Text, as it is or with references. -/
def writeText (verbatim : Bool) (data : String) : List Char :=
  if verbatim then data.toList else Reference.encode .content data.toList

mutual

/-- A tree as markup. `verbatim` says how text directly at this place is written. -/
def Tree.write (verbatim : Bool) : Tree → List Char
  | .element tag children =>
    tag.write ++ if tag.isVoid then [] else writeAll tag.isVerbatim children ++ tag.writeEnd
  | .text data => writeText verbatim data
  | .comment data => ['<', '!', '-', '-'] ++ data.toList ++ ['-', '-', '>']

/-- A list of trees as markup. -/
def writeAll (verbatim : Bool) : List Tree → List Char
  | [] => []
  | tree :: rest => tree.write verbatim ++ writeAll verbatim rest

end

/-- A list of trees as markup, at a place where text is written with references. -/
def print (content : List Tree) : String :=
  String.ofList (writeAll false content)

end LiveMarkup.Markup
