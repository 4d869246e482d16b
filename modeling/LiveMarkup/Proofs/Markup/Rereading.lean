import LiveMarkup.Markup.Print
import LiveMarkup.Proofs.Markup.Tokens
/-!
# Reading what has been written

Canonical markup is read back from its text. As when a template is read, a tree is added to what has been
read in front of it and nothing of the text behind it is touched (`run_write`), so that trees can be read one
after another and inside one another; `parse_print` is this for some content as a whole.
-/

namespace LiveMarkup.Markup

open Reference (decode)

variable {outer : Namespace} {tag : Tag} {tree : Tree} {children content : List Tree} {b : Builder}
  {rest : List Char}

/-! ### Start tags -/

theorem tagTail_writeAttribute {a : String × String} (h : Token.IsAttributeName a.1.toList)
    (rest : List Char) :
    Token.tagTail (writeAttribute a ++ rest)
      = ⟨(a.1.toList, a.2.toList) :: (Token.tagTail rest).attributes, (Token.tagTail rest).closed,
          (Token.tagTail rest).rest⟩ := by
  have hread := Token.tagTail_attribute h (.inl rfl) (Reference.quote_notMem_encode a.2.toList) rest
  rwa [Reference.decode_encode] at hread

theorem tagTail_write {attributes : List (String × String)}
    (h : ∀ a ∈ attributes, Token.IsAttributeName a.1.toList) (rest : List Char) :
    Token.tagTail (attributes.flatMap writeAttribute ++ '>' :: rest)
      = ⟨attributes.map fun a => (a.1.toList, a.2.toList), false, rest⟩ := by
  induction attributes with
  | nil => exact Token.tagTail_close rest
  | cons a attributes ih =>
    obtain ⟨ha, hattributes⟩ := List.forall_mem_cons.1 h
    rw [List.flatMap_cons, List.append_assoc, tagTail_writeAttribute ha, ih hattributes]
    rfl

theorem Tag.spelling_eq_self {space : Namespace} {s : String}
    (h : space = .html → Text.lower s.toList = s.toList) : Tag.spelling space s.toList = s := by
  cases space with
  | html => rw [Tag.spelling, h rfl, String.ofList_toList]
  | svg => exact String.ofList_toList

/-- A start tag stands for the tag that it was written for. -/
theorem Tag.IsRegular.ofStart (h : tag.IsRegular outer) :
    Tag.ofStart outer tag.name.toList (tag.attributes.map fun a => (a.1.toList, a.2.toList)) = tag := by
  have hattributes : (tag.attributes.map fun a => (a.1.toList, a.2.toList)).map
      (fun a => (Tag.spelling tag.space a.1, String.ofList a.2)) = tag.attributes := by
    rw [List.map_map]
    refine (List.map_congr_left fun a ha => ?_).trans (List.map_id' _)
    rw [Function.comp_apply, Tag.spelling_eq_self fun hspace => (h.small hspace).2 a ha,
      String.ofList_toList]
  rw [Tag.ofStart, ← h.space, hattributes, firstOfEachName_eq_self h.nodup,
    Tag.spelling_eq_self fun hspace => (h.small hspace).1]

theorem next_write (h : tag.IsRegular outer) (rest : List Char) :
    ∃ s, tag.write ++ rest = '<' :: s ∧
      Token.next '<' s
        = (.startTag tag.name.toList (tag.attributes.map fun a => (a.1.toList, a.2.toList)) false, rest) := by
  refine ⟨tag.name.toList ++ (tag.attributes.flatMap writeAttribute ++ '>' :: rest),
    by simp [Tag.write], ?_⟩
  -- the attributes do not continue the name
  obtain ⟨c, t, hcons, hc⟩ : ∃ c t, tag.attributes.flatMap writeAttribute ++ '>' :: rest = c :: t ∧
      ¬Token.isTagNamePart c = true := by
    cases tag.attributes with
    | nil => exact ⟨'>', rest, rfl, by decide⟩
    | cons a attributes => exact ⟨' ', _, rfl, by decide⟩
  rw [hcons, Token.next_startTag h.name hc, ← hcons, tagTail_write h.attributes]

/-- A start tag opens the element that it was written for, or adds it if it must be empty. -/
theorem run_startTag (hb : b.space = outer) (h : tag.IsRegular outer) (rest : List Char) :
    b.run (tag.write ++ rest) =
      let opened := if tag.isVoid then b.add (.element tag []) else b.push tag
      let taken := opened.takeRawText tag rest
      taken.1.run taken.2 := by
  obtain ⟨s, hs, hnext⟩ := next_write h rest
  rw [hs, b.run_cons hnext, Builder.accept, hb, h.ofStart, Builder.start]
  simp

theorem run_writeEnd (b : Builder) (h : tag.IsRegular outer) (children : List Tree) (rest : List Char) :
    ((b.push tag).addAll children).run (tag.writeEnd ++ rest)
      = (b.add (.element tag children)).run rest := by
  rw [Tag.writeEnd, Builder.run_endTag _ h.name, Builder.close_addAll_push _ _ (by simp [Text.sameLetters])]

/-! ### Content that is not read as markup -/

theorem Tag.eq_nil_or_text_of_admits {kind : RawText} (hkind : tag.rawText? = some kind)
    (h : tag.admits children = true) : children = [] ∨ ∃ data, children = [.text data] := by
  unfold Tag.admits at h
  split at h
  · simp_all
  · exact .inl rfl
  · exact .inr ⟨_, rfl⟩
  · exact .inr ⟨_, rfl⟩
  · cases h

theorem takeRawText_of_none (h : tag.rawText? = none) (b : Builder) (s : List Char) :
    b.takeRawText tag s = (b, s) := by
  rw [Builder.takeRawText, h]

/-- The text of a raw text element is written so that its end tag does not begin in it, and so that it is read
as what it was. -/
theorem writeText_rawText {kind : RawText} {data : String} (hkind : tag.rawText? = some kind)
    (h : tag.admits [.text data] = true) :
    Token.holdsEndTag tag.name.toList (writeText tag.isVerbatim data) = false ∧
      (if kind = .decoded then decode (writeText tag.isVerbatim data) else writeText tag.isVerbatim data)
        = data.toList := by
  cases kind with
  | verbatim =>
    have hverbatim : tag.isVerbatim = true := by simp [Tag.isVerbatim, hkind]
    rw [writeText, if_pos hverbatim]
    exact ⟨by simpa [Tag.admits, hkind] using h, if_neg (by decide)⟩
  | decoded =>
    have hverbatim : ¬tag.isVerbatim = true := by simp [Tag.isVerbatim, hkind]
    rw [writeText, if_neg hverbatim, if_pos rfl]
    exact ⟨Token.holdsEndTag_of_notMem (Reference.bracket_notMem_encode _), Reference.decode_encode _ _⟩

theorem takeRawText_writeAll {kind : RawText} (hkind : tag.rawText? = some kind)
    (h : tag.admits children = true) (heach : EachIsRegular outer children) (b : Builder) (rest : List Char) :
    (b.push tag).takeRawText tag (writeAll tag.isVerbatim children ++ (tag.writeEnd ++ rest))
      = ((b.push tag).addAll children, tag.writeEnd ++ rest) := by
  have hbracket := Tag.bracket_notMem_of_rawText? hkind
  rw [Builder.takeRawText, hkind]
  dsimp only
  rcases Tag.eq_nil_or_text_of_admits hkind h with rfl | ⟨data, rfl⟩
  · have hraw : Token.rawText tag.name.toList (writeAll tag.isVerbatim [] ++ (tag.writeEnd ++ rest))
        = ([], tag.writeEnd ++ rest) := Token.rawText_append hbracket (s := []) rfl rest
    rw [hraw, decode, ite_self]
    rfl
  · obtain ⟨hholds, hread⟩ := writeText_rawText hkind h
    have hne : data.toList ≠ [] := fun he => heach.1 (String.toList_injective he)
    have hraw : Token.rawText tag.name.toList (writeAll tag.isVerbatim [.text data] ++ (tag.writeEnd ++ rest))
        = (writeText tag.isVerbatim data, tag.writeEnd ++ rest) := by
      rw [writeAll, writeAll, Tree.write, List.append_nil]
      exact Token.rawText_append hbracket hholds rest
    rw [hraw]
    dsimp only
    rw [hread, Builder.addText_eq_add rfl hne, String.ofList_toList]
    rfl

/-! ### Trees -/

theorem head?_write_append (h : tree.isText = false) (verbatim : Bool) (rest : List Char) :
    (tree.write verbatim ++ rest).head? = some '<' := by
  cases tree with
  | text => cases h
  | element => rfl
  | comment => rfl

/-- Reading what is written for a tree adds the tree to what is in front of it. Text has no text in front of it
and no other text behind it. -/
def Tree.IsReread (outer : Namespace) (tree : Tree) : Prop :=
  ∀ (b : Builder) (rest : List Char), b.space = outer →
    (tree.isText = true → b.endsInText = false ∧ (rest = [] ∨ rest.head? = some '<')) →
    b.run (tree.write false ++ rest) = (b.add tree).run rest

/-- Reading what is written for some content adds the content to what is in front of it. -/
def IsReread (outer : Namespace) (content : List Tree) : Prop :=
  ∀ (b : Builder) (rest : List Char), b.space = outer →
    (content.head?.any Tree.isText = true → b.endsInText = false) →
    (rest = [] ∨ rest.head? = some '<') →
    b.run (writeAll false content ++ rest) = (b.addAll content).run rest

theorem isReread_element (htag : tag.IsRegular outer) (hvoid : tag.isVoid = true → children = [])
    (hadmits : tag.admits children = true) (heach : EachIsRegular tag.contentSpace children)
    (hchildren : IsReread tag.contentSpace children) : (Tree.element tag children).IsReread outer := by
  intro b rest hb _
  rw [Tree.write, List.append_assoc, run_startTag hb htag]
  cases hv : tag.isVoid with
  | true =>
    rw [hvoid hv, if_pos rfl, if_pos rfl]
    dsimp only
    rw [takeRawText_of_none (Tag.rawText?_of_isVoid hv)]
    rfl
  | false =>
    rw [if_neg Bool.false_ne_true, if_neg Bool.false_ne_true, List.append_assoc]
    dsimp only
    cases hraw : tag.rawText? with
    | none =>
      have hverbatim : tag.isVerbatim = false := by simp [Tag.isVerbatim, hraw]
      rw [takeRawText_of_none hraw, hverbatim,
        hchildren _ _ (b.space_push tag) (fun _ => rfl) (.inr rfl), run_writeEnd b htag]
    | some kind =>
      rw [takeRawText_writeAll hraw hadmits heach]
      exact run_writeEnd b htag children rest

theorem isReread_text {data : String} (h : data ≠ "") : (Tree.text data).IsReread outer := by
  intro b rest _ htext
  obtain ⟨hb, hrest⟩ := htext rfl
  have hne : data.toList ≠ [] := fun he => h (String.toList_injective he)
  have hread := Builder.run_text (Reference.encode_ne_nil hne)
    (Reference.bracket_notMem_encode data.toList) hb hrest
  rwa [Reference.decode_encode, String.ofList_toList] at hread

theorem isReread_comment {data : String} (h : ¬['-', '-', '>'] <:+: data.toList) :
    (Tree.comment data).IsReread outer := by
  intro b rest _ _
  have hread := b.run_comment h rest
  rwa [String.ofList_toList] at hread

theorem isReread_cons (hseparate : AreSeparate (tree :: content)) (htree : tree.IsReread outer)
    (hcontent : IsReread outer content) : IsReread outer (tree :: content) := by
  intro b rest hb htext hrest
  have hnext := (List.isChain_cons.1 hseparate).1
  -- behind text there is a bracket or nothing
  have hbehind : tree.isText = true →
      writeAll false content ++ rest = [] ∨ (writeAll false content ++ rest).head? = some '<' := by
    intro ht
    cases content with
    | nil => exact hrest
    | cons next content =>
      have hnot : next.isText = false := by
        simpa [ht] using hnext next rfl
      rw [writeAll, List.append_assoc]
      exact .inr (head?_write_append hnot false _)
  have hends : content.head?.any Tree.isText = true → (b.add tree).endsInText = false := by
    intro ht
    obtain ⟨next, hhead, hnot⟩ := (Option.any_eq_true _ _).1 ht
    simpa [hnot] using hnext next hhead
  rw [writeAll, List.append_assoc, htree b _ hb fun ht => ⟨htext ht, hbehind ht⟩,
    hcontent (b.add tree) rest hb hends hrest, ← Builder.addAll_cons]

/-- Reading what is written for canonical markup adds the markup to what is in front of it. -/
theorem run_write :
    (∀ tree : Tree, ∀ outer, tree.IsRegular outer → tree.keepsRawText = true → tree.IsReread outer) ∧
      ∀ content : List Tree, ∀ outer, AreSeparate content → EachIsRegular outer content →
        eachKeepsRawText content = true → IsReread outer content := by
  refine Tree.induct ?_ ?_ ?_ ?_ ?_
  · intro tag children ih outer h hkeeps
    obtain ⟨htag, hvoid, hseparate, heach⟩ := h
    obtain ⟨hadmits, hkeeps⟩ := Bool.and_eq_true_iff.1 hkeeps
    exact isReread_element htag hvoid hadmits heach (ih _ hseparate heach hkeeps)
  · intro data outer h _
    exact isReread_text h
  · intro data outer h _
    exact isReread_comment h
  · intro _ _ _ _ b rest _ _ _
    rfl
  · intro tree content ihtree ihcontent outer hseparate heach hkeeps
    obtain ⟨htree, hkeeps⟩ := Bool.and_eq_true_iff.1 hkeeps
    exact isReread_cons hseparate (ihtree outer heach.1 htree)
      (ihcontent outer (List.isChain_cons.1 hseparate).2 heach.2 hkeeps)

/-- Canonical markup is what its text is read as. -/
theorem parse_print {space : Namespace} (h : AreCanonical space content) :
    parse space (print content) = content := by
  have hrun := run_write.2 content space h.separate h.each h.rawText (Builder.empty space) [] rfl
    (fun _ => rfl) (.inl rfl)
  rw [List.append_nil, Builder.run] at hrun
  rw [parse, print, String.toList_ofList, hrun]
  exact Builder.finish_addAll_empty space content

end LiveMarkup.Markup
