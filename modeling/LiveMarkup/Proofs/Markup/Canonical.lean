import LiveMarkup.Markup.Builder
import Mathlib.Data.List.Chain
/-!
# Markup that can be written down

Not every tree has a text of its own: two texts next to each other are written as one, and a comment ends at
the first `-->` in its data. `AreRegular` says of the trees in some content that each of them can be told
from its neighbours and that names, attributes and namespaces are such as a start tag gives. Whatever has
been read is regular. `eachKeepsRawText` says of the elements whose content is not read as markup that they
hold one text at most, and no beginning of their own end tag where text is written as it is; markup with all
of this is canonical.
-/

namespace LiveMarkup.Markup

namespace Token

/-- The name of an element: a letter, and then all but blanks, slashes and closing brackets. -/
structure IsTagName (name : List Char) : Prop where
  head : name.head?.any Text.isLetter = true
  parts : ∀ c ∈ name, isTagNamePart c = true

/-- The name of an attribute: all but blanks, slashes, closing brackets and equals signs. An equals sign
alone is a name as well. -/
def IsAttributeName (name : List Char) : Prop :=
  name = ['='] ∨ name ≠ [] ∧ ∀ c ∈ name, isAttributeNamePart c = true

/-- Whether the end tag of an element begins somewhere in a text, in letters of any case. -/
def holdsEndTag (name : List Char) : List Char → Bool
  | [] => false
  | c :: rest => beginsEndTag name (c :: rest) || holdsEndTag name rest

end Token

namespace Tag

/-- A tag as a start tag gives it inside content of a namespace. -/
structure IsRegular (outer : Namespace) (tag : Tag) : Prop where
  name : Token.IsTagName tag.name.toList
  space : tag.space = spaceOf outer tag.name.toList
  attributes : ∀ a ∈ tag.attributes, Token.IsAttributeName a.1.toList
  nodup : (tag.attributes.map Prod.fst).Nodup
  small : tag.space = .html → Text.lower tag.name.toList = tag.name.toList ∧
    ∀ a ∈ tag.attributes, Text.lower a.1.toList = a.1.toList

/-- Whether an element can have some children as far as its content is not read as markup: one text at most,
in which its end tag does not begin if it is written as it is. -/
def admits (tag : Tag) (children : List Tree) : Bool :=
  match tag.rawText?, children with
  | none, _ => true
  | some _, [] => true
  | some .verbatim, [.text data] => !Token.holdsEndTag tag.name.toList data.toList
  | some .decoded, [.text _] => true
  | some _, _ => false

end Tag

/-- Whether a tree is text. -/
def Tree.isText : Tree → Bool
  | .text _ => true
  | _ => false

/-- No two texts are next to each other. -/
def AreSeparate (content : List Tree) : Prop :=
  content.IsChain fun a b => ¬(a.isText = true ∧ b.isText = true)

mutual

/-- A tree that can be told from its neighbours, inside content of a namespace. -/
def Tree.IsRegular (outer : Namespace) : Tree → Prop
  | .element tag children =>
    tag.IsRegular outer ∧ (tag.isVoid = true → children = []) ∧ AreSeparate children ∧
      EachIsRegular tag.contentSpace children
  | .text data => data ≠ ""
  | .comment data => ¬['-', '-', '>'] <:+: data.toList

/-- Some trees each of which can be told from its neighbours. -/
def EachIsRegular (outer : Namespace) : List Tree → Prop
  | [] => True
  | tree :: rest => tree.IsRegular outer ∧ EachIsRegular outer rest

end

mutual

/-- Whether the elements of a tree whose content is not read as markup can have their children. -/
def Tree.keepsRawText : Tree → Bool
  | .element tag children => tag.admits children && eachKeepsRawText children
  | .text _ => true
  | .comment _ => true

/-- Whether the elements in some trees whose content is not read as markup can have their children. -/
def eachKeepsRawText : List Tree → Bool
  | [] => true
  | tree :: rest => tree.keepsRawText && eachKeepsRawText rest

end

/-- The trees in some content can be told apart. -/
structure AreRegular (space : Namespace) (content : List Tree) : Prop where
  separate : AreSeparate content
  each : EachIsRegular space content

/-- The trees in some content can be told apart, and so can what is in the elements whose content is not read
as markup. -/
structure AreCanonical (space : Namespace) (content : List Tree) : Prop extends
    AreRegular space content where
  rawText : eachKeepsRawText content = true

/-! ### Deciding whether markup is canonical -/

instance (name : List Char) : Decidable (Token.IsTagName name) :=
  decidable_of_iff (name.head?.any Text.isLetter = true ∧ name.all Token.isTagNamePart = true)
    ⟨fun h => ⟨h.1, List.all_eq_true.1 h.2⟩, fun h => ⟨h.head, List.all_eq_true.2 h.parts⟩⟩

instance (name : List Char) : Decidable (Token.IsAttributeName name) :=
  decidable_of_iff (name = ['='] ∨ name ≠ [] ∧ name.all Token.isAttributeNamePart = true)
    (or_congr_right (and_congr_right fun _ => List.all_eq_true))

instance (outer : Namespace) (tag : Tag) : Decidable (tag.IsRegular outer) :=
  decidable_of_iff (Token.IsTagName tag.name.toList ∧ tag.space = Tag.spaceOf outer tag.name.toList ∧
      (∀ a ∈ tag.attributes, Token.IsAttributeName a.1.toList) ∧ (tag.attributes.map Prod.fst).Nodup ∧
      (tag.space = .html → Text.lower tag.name.toList = tag.name.toList ∧
        ∀ a ∈ tag.attributes, Text.lower a.1.toList = a.1.toList))
    ⟨fun ⟨name, space, attributes, nodup, small⟩ => ⟨name, space, attributes, nodup, small⟩,
      fun h => ⟨h.name, h.space, h.attributes, h.nodup, h.small⟩⟩

instance (content : List Tree) : Decidable (AreSeparate content) :=
  inferInstanceAs (Decidable (content.IsChain _))

mutual

instance Tree.decidableIsRegular (outer : Namespace) : (tree : Tree) → Decidable (tree.IsRegular outer)
  | .element tag children =>
    have := decidableEachIsRegular tag.contentSpace children
    have : Decidable (children = []) := decidable_of_iff (children.isEmpty = true) List.isEmpty_iff
    inferInstanceAs (Decidable (_ ∧ (_ → _) ∧ _ ∧ _))
  | .text _ => inferInstanceAs (Decidable (¬_ = _))
  | .comment _ => inferInstanceAs (Decidable (¬_ <:+: _))

instance decidableEachIsRegular (outer : Namespace) :
    (content : List Tree) → Decidable (EachIsRegular outer content)
  | [] => inferInstanceAs (Decidable True)
  | tree :: rest =>
    have := tree.decidableIsRegular outer
    have := decidableEachIsRegular outer rest
    inferInstanceAs (Decidable (_ ∧ _))

end

instance (space : Namespace) (content : List Tree) : Decidable (AreRegular space content) :=
  decidable_of_iff (AreSeparate content ∧ EachIsRegular space content)
    ⟨fun h => ⟨h.1, h.2⟩, fun h => ⟨h.separate, h.each⟩⟩

instance (space : Namespace) (content : List Tree) : Decidable (AreCanonical space content) :=
  decidable_of_iff (AreRegular space content ∧ eachKeepsRawText content = true)
    ⟨fun h => ⟨h.1, h.2⟩, fun h => ⟨h.toAreRegular, h.rawText⟩⟩

/-! ### What names and raw text are like -/

variable {outer : Namespace} {content : List Tree} {name : List Char} {tag : Tag}

theorem eachIsRegular_iff : EachIsRegular outer content ↔ ∀ tree ∈ content, tree.IsRegular outer := by
  induction content with
  | nil => simp [EachIsRegular]
  | cons tree content ih => rw [EachIsRegular, ih, List.forall_mem_cons]

theorem Token.IsTagName.exists_eq_cons (h : Token.IsTagName name) :
    ∃ c t, name = c :: t ∧ Text.isLetter c = true := by
  cases name with
  | nil => cases h.head
  | cons c t => exact ⟨c, t, rfl, by simpa using h.head⟩

/-- No element that must be empty has content that is not read as markup. -/
theorem Tag.rawText?_of_isVoid (h : tag.isVoid = true) : tag.rawText? = none := by
  obtain ⟨hspace, hname⟩ : tag.space = .html ∧ tag.name ∈ voidNames := by
    simpa [Tag.isVoid] using h
  rw [Tag.rawText?, hspace]
  generalize tag.name = name at hname
  revert name
  decide

theorem Tag.name_mem_of_rawText? {kind : RawText} (h : tag.rawText? = some kind) :
    tag.name ∈ rawTextNames.map Prod.fst := by
  have hlookup : rawTextNames.lookup tag.name = some kind := by
    rw [Tag.rawText?] at h
    split at h
    · exact h
    · cases h
  obtain ⟨front, back, heq, -⟩ := List.lookup_eq_some_iff.1 hlookup
  rw [heq]
  simp

/-- No bracket is in the name of an element whose content is not read as markup. -/
theorem Tag.bracket_notMem_of_rawText? {kind : RawText} (h : tag.rawText? = some kind) :
    '<' ∉ Text.lower tag.name.toList := by
  have hmem := Tag.name_mem_of_rawText? h
  generalize tag.name = name at hmem
  revert name
  decide

end LiveMarkup.Markup
