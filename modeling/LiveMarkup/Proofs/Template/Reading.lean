import LiveMarkup.Proofs.Markup.Tokens
import LiveMarkup.Proofs.Template.Marking
/-!
# Reading marked templates

The text of a well-formed template with its holes marked is read as the trees that it was written for,
with a marker attribute or a marker comment for each hole (`readAll`). This is about its start tags: they
are read as the tags that they were written for (`next_markedTag`, `ofStart_eq_readTag`).
-/

namespace LiveMarkup.Template

open Markup (Tree Tag Token Builder Namespace)
open Markup.Reference (decode decode_of_notMem)
open Markup.Token (isTagNamePart isAttributeNamePart)
open Text (isBlank_eq_false lower_eq_self toLower_eq_self isLower_iff)

/-! ### What is read -/

/-- An attribute as it is read, its hole marked as the one with a number. -/
def Attribute.read (i : Nat) : Attribute → String × String
  | fixed name written => (String.ofList name, String.ofList (decode written))
  | hole name _ => (marker i, String.ofList name)

/-- Attributes as they are read, with their holes marked from a number on. -/
def readIn (i : Nat) : List Attribute → List (String × String)
  | [] => []
  | a :: rest => a.read i :: readIn (i + a.gaps) rest

/-- A start tag as it is read. -/
def readTag (i : Nat) (name : List Char) (attributes : List Attribute) : Tag :=
  ⟨String.ofList name, .html, readIn i attributes⟩

mutual

/-- A node as it is read, with its holes marked from a number on. -/
def Source.read (i : Nat) : Source → Tree
  | .text written => .text (String.ofList (decode written))
  | .comment data => .comment (String.ofList data)
  | .hole => .comment (marker i)
  | .element name attributes children =>
    .element (readTag i name attributes) (readAll (i + gapsIn attributes) children)
  | .raw name attributes none =>
    .element (readTag i name attributes) (textOf (markerComment (i + gapsIn attributes)))
  | .raw name attributes (some s) => .element (readTag i name attributes) (textOf s)

/-- Some nodes as they are read, with their holes marked from a number on. -/
def readAll (i : Nat) : List Source → List Tree
  | [] => []
  | node :: rest => node.read i :: readAll (i + node.gaps) rest

end

/-! ### Names -/

section Names

variable {name : List Char} {c : Char} {i j : Nat}

theorem toDigits_injective (h : Nat.toDigits 10 i = Nat.toDigits 10 j) : i = j := by
  have := congrArg (Nat.ofDigitChars 10 · 0) h
  simpa [Nat.ofDigitChars_toDigits] using this

theorem marker_injective (h : marker i = marker j) : i = j := by
  have htoList := congrArg String.toList h
  rw [toList_marker, toList_marker, List.cons.injEq, List.cons.injEq, List.cons.injEq] at htoList
  exact toDigits_injective htoList.2.2.2

theorem toLower_of_isDigit (h : c.isDigit = true) : c.toLower = c :=
  toLower_eq_self (.inl (Nat.lt_of_le_of_lt (Char.isDigit_iff_toNat.1 h).2 (by decide)))

theorem toLower_of_isLower (h : c.isLower = true) : c.toLower = c :=
  toLower_eq_self (.inr (by have := isLower_iff.1 h; omega))

theorem lower_marker (i : Nat) : Text.lower (marker i).toList = (marker i).toList := by
  refine lower_eq_self fun c hc => ?_
  rcases isDigit_of_mem_marker hc with rfl | rfl | rfl | hdigit
  · decide
  · decide
  · decide
  · exact toLower_of_isDigit hdigit

theorem IsElementName.lower_eq (h : IsElementName name) : Text.lower name = name := by
  refine lower_eq_self fun c hc => ?_
  rcases h.parts c hc with hlower | hdigit | rfl
  · exact toLower_of_isLower hlower
  · exact toLower_of_isDigit hdigit
  · decide

theorem IsElementName.isTagName (h : IsElementName name) : Token.IsTagName name := by
  refine ⟨?_, fun c hc => ?_⟩
  · obtain ⟨c, t, rfl, hc⟩ := h.exists_eq_cons
    simpa using hc
  · have hblank : Text.isBlank c = false := by
      rcases h.parts c hc with hlower | hdigit | rfl
      · have := isLower_iff.1 hlower
        exact isBlank_eq_false (by omega) (by omega)
      · obtain ⟨hlow, hhigh⟩ := Char.isDigit_iff_toNat.1 hdigit
        exact isBlank_eq_false (Nat.lt_of_lt_of_le (by decide) hlow)
          (Nat.lt_of_le_of_lt hhigh (by decide))
      · decide
    simp [isTagNamePart, hblank, h.ne hc '/', h.ne hc '>']

theorem isBlank_of_isNamePart (h : isNamePart c = true) : Text.isBlank c = false := by
  simp only [isNamePart, isHoleNamePart, Bool.and_eq_true, Bool.not_eq_true',
    Bool.or_eq_false_iff] at h
  exact h.1.1.1.1.1.1.1.1

theorem IsAttributeName.isTokenName (h : IsAttributeName name) : Token.IsAttributeName name := by
  refine .inr ⟨h.nonempty, fun c hc => ?_⟩
  have hpart := h.parts c hc
  simp [isAttributeNamePart, isTagNamePart, isBlank_of_isNamePart hpart, ne_of_isNamePart hpart '/',
    ne_of_isNamePart hpart '>', ne_of_isNamePart hpart '=']

end Names

/-! ### Reading attributes -/

section Attributes

variable {name : List Char} {attributes : List Attribute} {i : Nat}

theorem tagTail_marked {a : Attribute} (h : a.IsWellFormed) (i : Nat) (rest : List Char) :
    Token.tagTail (a.marked i ++ rest)
      = ⟨((a.read i).1.toList, (a.read i).2.toList) :: (Token.tagTail rest).attributes,
          (Token.tagTail rest).closed, (Token.tagTail rest).rest⟩ := by
  cases a with
  | fixed name written =>
    obtain ⟨hname, -, -, -, hquote⟩ := h
    have := Token.tagTail_attribute hname.isTokenName (.inl rfl) hquote rest
    simpa [Attribute.read, Attribute.marked, quoted] using this
  | hole name quoting =>
    have hname : IsAttributeName name := h
    have hdecode : decode name = name :=
      decode_of_notMem fun hmem => ne_of_isNamePart (hname.parts _ hmem) '&' (by decide) rfl
    have hquote : quoting.mark?.getD '"' = '"' ∨ quoting.mark?.getD '"' = '\x27' := by
      cases quoting <;> simp [Quoting.mark?]
    have hvalue : quoting.mark?.getD '"' ∉ name := by
      intro hmem
      have hpart := hname.parts _ hmem
      rcases hquote with hq | hq <;> exact absurd hq (ne_of_isNamePart hpart _)
    have := Token.tagTail_attribute (isAttributeName_marker i).isTokenName hquote hvalue rest
    rw [hdecode] at this
    simpa [Attribute.read, Attribute.marked, quoted] using this

/-- All attributes of a start tag are read as they were written. -/
theorem tagTail_markedIn (h : ∀ a ∈ attributes, a.IsWellFormed) (i : Nat) (rest : List Char) :
    Token.tagTail (markedIn i attributes ++ '>' :: rest)
      = ⟨(readIn i attributes).map fun a => (a.1.toList, a.2.toList), false, rest⟩ := by
  induction attributes generalizing i with
  | nil => exact Token.tagTail_close rest
  | cons a attributes ih =>
    obtain ⟨ha, hattributes⟩ := List.forall_mem_cons.1 h
    rw [markedIn, List.append_assoc, tagTail_marked ha, ih hattributes]
    rfl

/-- A start tag is read back from its text. -/
theorem next_markedTag (hname : IsElementName name) (h : ∀ a ∈ attributes, a.IsWellFormed) (i : Nat)
    (rest : List Char) :
    ∃ s, markedTag i name attributes ++ rest = '<' :: s ∧
      Token.next '<' s
        = (.startTag name ((readIn i attributes).map fun a => (a.1.toList, a.2.toList)) false, rest) := by
  refine ⟨name ++ (markedIn i attributes ++ '>' :: rest), by simp [markedTag], ?_⟩
  -- the attributes do not continue the name
  obtain ⟨c, t, hcons, hc⟩ : ∃ c t, markedIn i attributes ++ '>' :: rest = c :: t ∧
      ¬isTagNamePart c = true := by
    cases attributes with
    | nil => exact ⟨'>', rest, rfl, by decide⟩
    | cons a attributes => cases a <;> exact ⟨' ', _, rfl, by decide⟩
  rw [hcons, Token.next_startTag hname.isTagName hc, ← hcons, tagTail_markedIn h]

end Attributes

/-! ### The tag that a start tag stands for -/

section Tags

variable {name : List Char} {attributes : List Attribute} {i : Nat}

theorem filterMap_fixed_cons (name written : List Char) (attributes : List Attribute) :
    (Attribute.fixed name written :: attributes).filterMap Attribute.fixed?
      = (String.ofList name, String.ofList (decode written)) :: attributes.filterMap Attribute.fixed? :=
  rfl

/-- No attribute without hole has the name of a marker. -/
theorem marker_notMem (h : ∀ a ∈ attributes, a.IsWellFormed) (i : Nat) :
    marker i ∉ (attributes.filterMap Attribute.fixed?).map Prod.fst := by
  intro hmem
  obtain ⟨⟨n, v⟩, hmem, hn⟩ := List.mem_map.1 hmem
  obtain ⟨a, ha, hfixed⟩ := List.mem_filterMap.1 hmem
  cases a with
  | fixed name written =>
    cases hfixed
    exact (h _ ha).2.2.1 i (by rw [← hn]; exact String.toList_ofList.symm)
  | hole name quoting => cases hfixed

/-- An attribute that is read is one that was written down or a marker. -/
theorem mem_readIn {name : String} (h : name ∈ (readIn i attributes).map Prod.fst) :
    name ∈ (attributes.filterMap Attribute.fixed?).map Prod.fst ∨ ∃ j, i ≤ j ∧ name = marker j := by
  induction attributes generalizing i with
  | nil => cases h
  | cons a attributes ih =>
    rw [readIn, List.map_cons, List.mem_cons] at h
    cases a with
    | fixed n written =>
      rw [filterMap_fixed_cons, List.map_cons, List.mem_cons]
      rcases h with h | h
      · exact .inl (.inl h)
      · exact (ih h).imp_left .inr
    | hole n quoting =>
      rcases h with h | h
      · exact .inr ⟨i, Nat.le_refl i, h⟩
      · refine (ih h).imp_right ?_
        rintro ⟨j, hj, rfl⟩
        exact ⟨j, by have : i + 1 ≤ j := hj; omega, rfl⟩

theorem nodup_readIn (h : AreWellFormed attributes) (i : Nat) :
    ((readIn i attributes).map Prod.fst).Nodup := by
  induction attributes generalizing i with
  | nil => exact List.nodup_nil
  | cons a attributes ih =>
    obtain ⟨hall, hnodup⟩ := h
    obtain ⟨ha, hattributes⟩ := List.forall_mem_cons.1 hall
    cases a with
    | fixed n written =>
      rw [filterMap_fixed_cons, List.map_cons, List.nodup_cons] at hnodup
      refine List.nodup_cons.2 ⟨fun hmem => ?_, ih ⟨hattributes, hnodup.2⟩ _⟩
      rcases mem_readIn hmem with hmem | ⟨j, -, hj⟩
      · exact hnodup.1 hmem
      · exact ha.2.2.1 j (by rw [← hj]; exact String.toList_ofList.symm)
    | hole n quoting =>
      refine List.nodup_cons.2 ⟨fun hmem => ?_, ih ⟨hattributes, hnodup⟩ _⟩
      rcases mem_readIn hmem with hmem | ⟨j, hj, he⟩
      · exact marker_notMem hattributes i hmem
      · have : i = j := marker_injective he
        have : i + 1 ≤ j := hj
        omega

theorem lower_of_mem_readIn (h : ∀ a ∈ attributes, a.IsWellFormed) {a : String × String}
    (ha : a ∈ readIn i attributes) : Text.lower a.1.toList = a.1.toList := by
  induction attributes generalizing i with
  | nil => cases ha
  | cons b attributes ih =>
    obtain ⟨hb, hattributes⟩ := List.forall_mem_cons.1 h
    rcases List.mem_cons.1 ha with rfl | ha
    · cases b with
      | fixed name written => simpa [Attribute.read] using hb.2.1
      | hole name quoting => exact lower_marker i
    · exact ih hattributes ha

/-- Only an `svg` element leads into another namespace. -/
theorem IsElementName.spaceOf_eq (hname : IsElementName name) (hsvg : name ≠ "svg".toList)
    (space : Namespace) : Tag.spaceOf space name = space := by
  have : Text.sameLetters name ['s', 'v', 'g'] = false := by
    rw [Text.sameLetters, hname.lower_eq]
    exact beq_false_of_ne hsvg
  rw [Tag.spaceOf, this, if_neg Bool.false_ne_true]

theorem IsElementName.spelling_eq (hname : IsElementName name) (space : Namespace) :
    Tag.spelling space name = String.ofList name := by
  cases space with
  | html => rw [Tag.spelling, hname.lower_eq]
  | svg => rfl

/-- Reading a start tag gives the tag that was written down. -/
theorem ofStart_eq_readTag (hname : IsElementName name) (hsvg : name ≠ "svg".toList)
    (h : AreWellFormed attributes) (i : Nat) :
    Tag.ofStart .html name ((readIn i attributes).map fun a => (a.1.toList, a.2.toList))
      = readTag i name attributes := by
  have hattributes : ((readIn i attributes).map fun a => (a.1.toList, a.2.toList)).map
      (fun a => (Tag.spelling .html a.1, String.ofList a.2)) = readIn i attributes := by
    rw [List.map_map]
    refine (List.map_congr_left fun a ha => ?_).trans (List.map_id' _)
    rw [Function.comp_apply, Tag.spelling, lower_of_mem_readIn h.each ha, String.ofList_toList,
      String.ofList_toList]
  rw [Tag.ofStart, hname.spaceOf_eq hsvg, hname.spelling_eq, hattributes,
    Markup.firstOfEachName_eq_self (nodup_readIn h i)]
  rfl

end Tags

end LiveMarkup.Template
