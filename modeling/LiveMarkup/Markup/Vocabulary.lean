import LiveMarkup.Markup.Basic
/-!
# Element names with rules of their own

Void elements have no content and no end tag. The content of raw text elements is not read as
markup; in some of them character references are still decoded. Both rules hold in the HTML
namespace only.
-/

namespace LiveMarkup.Markup

/-- The names of the void elements, in small letters. -/
def voidNames : List String :=
  ["area", "base", "br", "col", "embed", "hr", "img", "input", "keygen", "link", "menuitem", "meta",
    "param", "source", "track", "wbr"]

/-- How the content of a raw text element is read. -/
inductive RawText where
  /-- Every character stands for itself. -/
  | verbatim
  /-- Tags are plain text, but character references are decoded. -/
  | decoded
deriving DecidableEq, Repr

/-- The raw text elements. -/
def rawTextNames : List (String × RawText) :=
  [("script", .verbatim), ("style", .verbatim), ("xmp", .verbatim), ("textarea", .decoded),
    ("title", .decoded)]

namespace Tag

/-- Whether the element never has content. -/
def isVoid (tag : Tag) : Bool :=
  tag.space == .html && voidNames.contains tag.name

/-- How the element's content is read if it is not read as markup. -/
def rawText? (tag : Tag) : Option RawText :=
  match tag.space with
  | .html => rawTextNames.lookup tag.name
  | .svg => none

/-- Whether text directly inside the element is written as it is, without character references. -/
def isVerbatim (tag : Tag) : Bool :=
  tag.rawText? == some .verbatim

/-- The namespace of the element's content: that of the element, except inside `foreignObject`. -/
def contentSpace (tag : Tag) : Namespace :=
  if tag.space = .svg ∧ tag.name = "foreignObject" then .html else tag.space

end Tag

end LiveMarkup.Markup
