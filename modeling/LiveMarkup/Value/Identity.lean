/-!
# Identities

Things that are told apart by which one they are, and not by what they hold, are named by numbers.
-/

namespace LiveMarkup

/-- Names a node of a document. -/
structure NodeId where
  index : Nat
deriving DecidableEq, Repr, Inhabited, Hashable

/-- Names an attribute, which keeps its identity while it is put on elements and taken off. -/
structure AttributeId where
  index : Nat
deriving DecidableEq, Repr, Inhabited, Hashable

/-- Names an event handler. -/
structure ListenerId where
  index : Nat
deriving DecidableEq, Repr, Inhabited, Hashable

/-- Names a cell in which a template leaves one of its elements. -/
structure CellId where
  index : Nat
deriving DecidableEq, Repr, Inhabited, Hashable

/-- Names an object of the host program that means nothing to a document. -/
structure ObjectId where
  index : Nat
deriving DecidableEq, Repr, Inhabited, Hashable

end LiveMarkup
