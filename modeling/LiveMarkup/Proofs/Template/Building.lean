import LiveMarkup.Proofs.Template.Reading
/-!
# Building the trees of a template

The tokens of a well-formed template are put together into the trees that it was written for. Each node is
added behind what has been read in front of it, and the text behind it is left as it is (`run_source`);
only text has to care for what is next to it, as it would continue other text.
-/

namespace LiveMarkup

open Markup (Tree Tag Token)
open Markup.Reference (decode decode_of_notMem)

namespace Template

open Markup (Builder)

variable {name : List Char} {attributes : List Attribute} {b : Builder} {s rest : List Char}

theorem isVoid_readTag (i : Nat) (name : List Char) (attributes : List Attribute) :
    (readTag i name attributes).isVoid = isVoidName name :=
  rfl

/-- A start tag of the right form opens the element that was written down. -/
theorem run_markedTag (hb : b.space = .html) (hname : IsElementName name)
    (hsvg : name ≠ "svg".toList) (h : AreWellFormed attributes) (i : Nat) (rest : List Char) :
    b.run (markedTag i name attributes ++ rest) =
      let tag := readTag i name attributes
      let taken := (if isVoidName name then b.add (.element tag []) else b.push tag).takeRawText tag rest
      taken.1.run taken.2 := by
  obtain ⟨s, hs, hnext⟩ := next_markedTag hname h.each i rest
  rw [hs, b.run_cons hnext, Builder.accept, hb, ofStart_eq_readTag hname hsvg h, Builder.start,
    isVoid_readTag]
  simp

/-! ### Elements with text as content -/

theorem rawText?_eq_none {tag : Tag}
    (h : tag.name.toList ∉ ["svg".toList, "script".toList, "xmp".toList, "title".toList, "style".toList,
      "textarea".toList]) : tag.rawText? = none := by
  have hlookup : Markup.rawTextNames.lookup tag.name = none := by
    rw [List.lookup_eq_none_iff]
    intro p hp
    rw [bne_iff_ne]
    intro heq
    refine h ?_
    rw [heq]
    simp only [Markup.rawTextNames, List.mem_cons, List.not_mem_nil, or_false] at hp
    rcases hp with rfl | rfl | rfl | rfl | rfl <;> decide
  rw [Tag.rawText?]
  cases tag.space with
  | html => exact hlookup
  | svg => rfl

theorem rawText_append {name : List Char} (hname : name ∈ ["style".toList, "textarea".toList])
    (h : Token.holdsEndTag name s = false) (rest : List Char) :
    Token.rawText name (s ++ (endTag name ++ rest)) = (s, endTag name ++ rest) := by
  have hbracket : '<' ∉ Text.lower name := by
    clear h
    revert name
    decide
  exact Token.rawText_append hbracket h rest

theorem holdsEndTag_markerComment (i : Nat) (name : List Char) :
    Token.holdsEndTag name (markerComment i) = false := by
  have hbare : '<' ∉ ['!', '-', '-'] ++ (marker i).toList ++ ['-', '-', '>'] := by
    have := (isAttributeName_marker i).isBare
    simp only [List.mem_append, not_or]
    exact ⟨⟨by decide, fun h => (this _ h).1 rfl⟩, by decide⟩
  show Token.holdsEndTag name ('<' :: (['!', '-', '-'] ++ (marker i).toList ++ ['-', '-', '>'])) = false
  rw [Token.holdsEndTag, Token.holdsEndTag_of_notMem hbare]
  simp [Token.beginsEndTag]

theorem addText_push (b : Builder) (tag : Tag) (s : List Char) :
    (b.push tag).addText s = (b.push tag).addAll (textOf s) := by
  cases s with
  | nil => rfl
  | cons c s => rfl

/-- The text of an element that holds nothing else is taken in as it is written. -/
theorem takeRawText_push (b : Builder) (hname : name ∈ ["style".toList, "textarea".toList])
    (hs : '&' ∉ s) (hend : Token.holdsEndTag name s = false) (i : Nat) (attributes : List Attribute)
    (rest : List Char) :
    (b.push (readTag i name attributes)).takeRawText (readTag i name attributes)
        (s ++ (endTag name ++ rest))
      = ((b.push (readTag i name attributes)).addAll (textOf s), endTag name ++ rest) := by
  obtain ⟨kind, hkind⟩ : ∃ kind, (readTag i name attributes).rawText? = some kind := by
    simp only [List.mem_cons, List.not_mem_nil, or_false] at hname
    rcases hname with rfl | rfl
    · exact ⟨.verbatim, rfl⟩
    · exact ⟨.decoded, rfl⟩
  have hnamed : (readTag i name attributes).name.toList = name := String.toList_ofList
  rw [Builder.takeRawText, hkind]
  dsimp only
  rw [hnamed, rawText_append hname hend, decode_of_notMem hs, ite_self, addText_push]

theorem run_raw (hb : b.space = .html) (hname : name ∈ ["style".toList, "textarea".toList])
    (h : AreWellFormed attributes) (hs : '&' ∉ s) (hend : Token.holdsEndTag name s = false) (i : Nat)
    (rest : List Char) :
    b.run (markedTag i name attributes ++ (s ++ (endTag name ++ rest)))
      = (b.add (.element (readTag i name attributes) (textOf s))).run rest := by
  have hvoid : isVoidName name = false := by
    simp only [List.mem_cons, List.not_mem_nil, or_false] at hname
    rcases hname with rfl | rfl <;> decide
  have hsvg : name ≠ "svg".toList := by
    rintro rfl
    revert hname
    decide
  have helement := isElementName_of_raw hname
  rw [run_markedTag hb helement hsvg h]
  simp only [hvoid, Bool.false_eq_true, if_false, takeRawText_push b hname hs hend]
  rw [endTag, Builder.run_endTag _ helement.isTagName, Builder.close_addAll_push]
  simp [readTag, Text.sameLetters]

/-! ### Nodes -/

theorem not_infix_of_isBare (h : IsBare s) : ¬['-', '-', '>'] <:+: s :=
  Text.not_infix_of_notMem ['-', '-'] fun hmem => (h _ hmem).2 rfl

theorem Source.head?_marked_append {node : Source} (h : node.isText = false) (i : Nat) (rest : List Char) :
    (node.marked i ++ rest).head? = some '<' := by
  have := (node.ends_marked h i).1
  rw [List.head?_append, this]
  rfl

theorem endsInText_add {node : Source} (h : node.isText = false) (b : Builder) (i : Nat) :
    (b.add (node.read i)).endsInText = false := by
  cases node with
  | text => cases h
  | raw name attributes content => cases content <;> rfl
  | _ => rfl

/-- Reading the marked text of a node adds what it stands for to what is in front of it. Text has no text in
front of it and no other text behind it. -/
def Source.IsBuilt (node : Source) : Prop :=
  ∀ (b : Builder) (i : Nat) (rest : List Char), b.space = .html →
    (node.isText = true → b.endsInText = false ∧ (rest = [] ∨ rest.head? = some '<')) →
    b.run (node.marked i ++ rest) = (b.add (node.read i)).run rest

/-- Reading the marked text of some nodes adds what they stand for to what is in front of them. -/
def AreBuilt (nodes : List Source) : Prop :=
  ∀ (b : Builder) (i : Nat) (rest : List Char), b.space = .html →
    (nodes.head?.any Source.isText = true → b.endsInText = false) →
    (rest = [] ∨ rest.head? = some '<') →
    b.run (markedAll i nodes ++ rest) = (b.addAll (readAll i nodes)).run rest

theorem isBuilt_text (hne : s ≠ []) (hbare : IsBare s) : (Source.text s).IsBuilt := by
  intro b i rest _ htext
  obtain ⟨hb, hrest⟩ := htext rfl
  exact Builder.run_text hne (fun hmem => (hbare _ hmem).1 rfl) hb hrest

theorem isBuilt_comment (hbare : IsBare s) : (Source.comment s).IsBuilt := fun b _ rest _ _ =>
  b.run_comment (not_infix_of_isBare hbare) rest

theorem isBuilt_hole : Source.hole.IsBuilt := by
  intro b i rest _ _
  have := b.run_comment (not_infix_of_isBare (isAttributeName_marker i).isBare) rest
  rwa [String.ofList_toList] at this

theorem isBuilt_element {children : List Source} (h : (Source.element name attributes children).IsWellFormed)
    (hchildren : AreBuilt children) : (Source.element name attributes children).IsBuilt := by
  intro b i rest hb _
  obtain ⟨hname, hspecial, hattributes, hvoid, -⟩ := h
  have hsvg : name ≠ "svg".toList := fun he => hspecial (he ▸ List.mem_cons_self)
  have hraw : ∀ b' s, Builder.takeRawText b' (readTag i name attributes) s = (b', s) := by
    intro b' s
    rw [Builder.takeRawText, rawText?_eq_none (by simpa [readTag] using hspecial)]
  rw [Source.marked, List.append_assoc, run_markedTag hb hname hsvg hattributes]
  dsimp only
  rw [hraw]
  cases hv : isVoidName name with
  | true =>
    rw [hvoid hv, Source.read, readAll]
    simp
  | false =>
    rw [if_neg Bool.false_ne_true, if_neg Bool.false_ne_true, List.append_assoc,
      hchildren _ _ _ (b.space_push _) (fun _ => rfl) (.inr rfl), endTag,
      Builder.run_endTag _ hname.isTagName,
      Builder.close_addAll_push _ _ (by simp [readTag, Text.sameLetters])]
    rfl

theorem isBuilt_raw {content : Option (List Char)} (h : (Source.raw name attributes content).IsWellFormed) :
    (Source.raw name attributes content).IsBuilt := by
  intro b i rest hb _
  obtain ⟨hname, hattributes, hcontent⟩ := h
  cases content with
  | none =>
    have hs : '&' ∉ markerComment (i + gapsIn attributes) := by
      have := (isAttributeName_marker (i + gapsIn attributes)).parts
      simp only [markerComment, List.mem_append, not_or]
      exact ⟨⟨by decide, fun h => ne_of_isNamePart (this _ h) '&' (by decide) rfl⟩, by decide⟩
    have := run_raw hb hname hattributes hs (holdsEndTag_markerComment _ name) i rest
    rw [Source.marked, List.append_assoc, List.append_assoc, this]
    rfl
  | some s =>
    obtain ⟨hbare, hs⟩ := hcontent s rfl
    have := run_raw hb hname hattributes hs
      (Token.holdsEndTag_of_notMem fun h => (hbare _ h).1 rfl) i rest
    rw [Source.marked, List.append_assoc, List.append_assoc, this]
    rfl

theorem areBuilt_cons {node : Source} {nodes : List Source}
    (hnext : node.isText = true → nodes.head?.any Source.isText = false) (hnode : node.IsBuilt)
    (hnodes : AreBuilt nodes) : AreBuilt (node :: nodes) := by
  intro b i rest hb htext hrest
  -- behind text there is a bracket or nothing
  have hbehind : node.isText = true → markedAll (i + node.gaps) nodes ++ rest = [] ∨
      (markedAll (i + node.gaps) nodes ++ rest).head? = some '<' := by
    intro ht
    cases nodes with
    | nil => exact hrest
    | cons next nodes =>
      have hnext : next.isText = false := by simpa using hnext ht
      rw [markedAll, List.append_assoc]
      exact .inr (next.head?_marked_append hnext _ _)
  have hends : nodes.head?.any Source.isText = true → (b.add (node.read i)).endsInText = false := by
    intro ht
    refine endsInText_add ?_ b i
    cases h : node.isText with
    | false => rfl
    | true =>
      rw [hnext h] at ht
      cases ht
  rw [markedAll, List.append_assoc, hnode b i _ hb fun ht => ⟨htext ht, hbehind ht⟩,
    hnodes _ _ _ (by rw [Builder.space_add, hb]) hends hrest, ← Builder.addAll_cons]
  rfl

/-- Reading the marked text of well-formed nodes adds what they stand for to what is in front of them. -/
theorem run_source :
    (∀ node : Source, node.IsWellFormed → node.IsBuilt) ∧
      ∀ nodes : List Source, AreAllWellFormed nodes → AreBuilt nodes := by
  refine Source.induct ?_ ?_ ?_ ?_ ?_ ?_ ?_
  · intro written h
    exact isBuilt_text h.1 h.2
  · intro data h
    exact isBuilt_comment h.1
  · intro _
    exact isBuilt_hole
  · intro name attributes children ih h
    exact isBuilt_element h (ih h.2.2.2.2)
  · intro name attributes content h
    exact isBuilt_raw h
  · intro _ b i rest _ _ _
    rfl
  · intro node nodes ihnode ihnodes h
    exact areBuilt_cons h.2.1 (ihnode h.1) (ihnodes h.2.2)

/-- The marked text of a well-formed template is read as what it was written for. -/
theorem parse_markedAll {nodes : List Source} (h : AreAllWellFormed nodes) :
    Markup.parse .html (String.ofList (markedAll 0 nodes)) = readAll 0 nodes := by
  have := run_source.2 nodes h (Builder.empty .html) 0 [] rfl (fun _ => rfl) (.inl rfl)
  rw [List.append_nil, Builder.run] at this
  rw [Markup.parse, String.toList_ofList, this]
  exact Builder.finish_addAll_empty .html _

end Template

end LiveMarkup
