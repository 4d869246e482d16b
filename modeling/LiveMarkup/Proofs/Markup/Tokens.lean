import LiveMarkup.Proofs.Markup.Canonical
import LiveMarkup.Proofs.Markup.Reference
/-!
# Reading one token

How tags, comments, text and the content of raw text elements are read from a text that begins with them.
Nothing is said about what follows but that it ends the text before it, so the lemmas can be used one after
another. Then what taking in such a token does to the markup that has been read so far.
-/

namespace LiveMarkup.Markup

open Reference (decode)
open Text (cutAt isLetter trimStart)

namespace Token

variable {name value data s rest : List Char} {c : Char}

/-! ### Start tags -/

/-- What is neither a slash nor a bracket begins an attribute. -/
theorem tagTail_of_trimStart (h : trimStart s = c :: rest) (hslash : c ≠ '/') (hclose : c ≠ '>') :
    tagTail s =
      let name := attributeName c rest
      let value := attributeValue name.2
      let tail := tagTail value.2
      { tail with attributes := (name.1, value.1) :: tail.attributes } := by
  rw [tagTail]
  split
  · rename_i heq
    cases h.symm.trans heq
  · rename_i heq
    exact absurd (List.cons.inj (h.symm.trans heq)).1 hslash
  · rename_i heq
    exact absurd (List.cons.inj (h.symm.trans heq)).1 hclose
  · rename_i heq
    exact absurd (List.cons.inj (h.symm.trans heq)).1 hslash
  · rename_i heq
    obtain ⟨rfl, rfl⟩ := List.cons.inj (h.symm.trans heq)
    rfl

theorem tagTail_of_nil (h : trimStart s = []) : tagTail s = ⟨[], false, []⟩ := by
  rw [tagTail]
  split <;> simp_all

theorem tagTail_of_closed (h : trimStart s = '/' :: '>' :: rest) : tagTail s = ⟨[], true, rest⟩ := by
  rw [tagTail]
  split <;> simp_all

theorem tagTail_of_bracket (h : trimStart s = '>' :: rest) : tagTail s = ⟨[], false, rest⟩ := by
  rw [tagTail]
  split <;> simp_all

theorem tagTail_of_slash (h : trimStart s = '/' :: rest) (hrest : ∀ t, '>' :: t ≠ rest) :
    tagTail s = tagTail rest := by
  rw [tagTail]
  split <;> simp_all

theorem tagTail_close (rest : List Char) : tagTail ('>' :: rest) = ⟨[], false, rest⟩ :=
  tagTail_of_bracket (List.dropWhile_cons_of_neg (by decide))

/-- The name of an attribute ends at an equals sign. -/
theorem IsAttributeName.attributeName (h : IsAttributeName name) (rest : List Char) :
    ∃ c t, name = c :: t ∧ isTagNamePart c = true ∧
      Token.attributeName c (t ++ '=' :: rest) = (name, '=' :: rest) := by
  rcases h with rfl | ⟨hne, hparts⟩
  · exact ⟨'=', [], rfl, by decide, rfl⟩
  · obtain ⟨c, t, rfl⟩ := List.exists_cons_of_ne_nil hne
    obtain ⟨hc, ht⟩ := List.forall_mem_cons.1 hparts
    obtain ⟨hpart, hequals⟩ : isTagNamePart c = true ∧ c ≠ '=' := by
      simpa [isAttributeNamePart] using hc
    refine ⟨c, t, rfl, hpart, ?_⟩
    rw [Token.attributeName, if_neg hequals, List.takeWhile_append_of_pos ht,
      List.dropWhile_append_of_pos ht, List.takeWhile_cons_of_neg (by decide),
      List.dropWhile_cons_of_neg (by decide), List.append_nil]

/-- An attribute with an equals sign is read up to where its value ends. -/
theorem tagTail_named {s : List Char} (hname : IsAttributeName name)
    (hvalue : attributeValue ('=' :: s) = (value, rest)) :
    tagTail (' ' :: name ++ '=' :: s)
      = ⟨(name, value) :: (tagTail rest).attributes, (tagTail rest).closed, (tagTail rest).rest⟩ := by
  obtain ⟨c, t, rfl, hpart, hattribute⟩ := hname.attributeName s
  obtain ⟨⟨hblank, hslash⟩, hclose⟩ : (Text.isBlank c = false ∧ c ≠ '/') ∧ c ≠ '>' := by
    simpa [isTagNamePart] using hpart
  have htrim : trimStart (' ' :: (c :: t) ++ '=' :: s) = c :: (t ++ '=' :: s) := by
    simp [trimStart, hblank, show Text.isBlank ' ' = true from by decide]
  rw [tagTail_of_trimStart htrim hslash hclose]
  simp only [hattribute, hvalue]

/-- An attribute is read back from its name and its value between quotes. -/
theorem tagTail_attribute {quote : Char} (hname : IsAttributeName name)
    (hquote : quote = '"' ∨ quote = '\x27') (hvalue : quote ∉ value) (rest : List Char) :
    tagTail (' ' :: name ++ ['=', quote] ++ value ++ [quote] ++ rest)
      = ⟨(name, decode value) :: (tagTail rest).attributes, (tagTail rest).closed, (tagTail rest).rest⟩ := by
  have hopening : trimStart (quote :: (value ++ quote :: rest)) = quote :: (value ++ quote :: rest) := by
    refine List.dropWhile_cons_of_neg ?_
    rcases hquote with rfl | rfl <;> decide
  have hequals : trimStart ('=' :: quote :: (value ++ quote :: rest))
      = '=' :: quote :: (value ++ quote :: rest) := List.dropWhile_cons_of_neg (by decide)
  have hread : attributeValue ('=' :: quote :: (value ++ quote :: rest)) = (decode value, rest) := by
    simp only [attributeValue, hequals, hopening, valueAfterEquals, if_pos hquote,
      Text.cutAt_single hvalue]
  have hsplit : ' ' :: name ++ ['=', quote] ++ value ++ [quote] ++ rest
      = ' ' :: name ++ '=' :: quote :: (value ++ quote :: rest) := by simp
  rw [hsplit, tagTail_named hname hread]

theorem afterBracket_of_isLetter (hc : isLetter c = true) (s : List Char) :
    afterBracket (c :: s) = startTagFrom (c :: s) := by
  unfold afterBracket
  split
  · rename_i heq
    cases heq
    cases hc
  · rename_i heq
    cases heq
    cases hc
  · rename_i heq
    cases heq
    cases hc
  · rename_i heq
    cases heq
    cases hc
  · rw [List.head?_cons, Option.any_some, if_pos hc]

/-- The name of an element ends where something stands that cannot be in it. -/
theorem IsTagName.split (h : IsTagName name) (hc : ¬isTagNamePart c = true) (rest : List Char) :
    (name ++ c :: rest).takeWhile isTagNamePart = name ∧
      (name ++ c :: rest).dropWhile isTagNamePart = c :: rest := by
  rw [List.takeWhile_append_of_pos h.parts, List.dropWhile_append_of_pos h.parts,
    List.takeWhile_cons_of_neg hc, List.dropWhile_cons_of_neg hc, List.append_nil]
  exact ⟨rfl, rfl⟩

theorem next_startTag (hname : IsTagName name) (hc : ¬isTagNamePart c = true) (rest : List Char) :
    next '<' (name ++ c :: rest)
      = (.startTag name (tagTail (c :: rest)).attributes (tagTail (c :: rest)).closed,
          (tagTail (c :: rest)).rest) := by
  obtain ⟨d, t, hcons, hd⟩ := hname.exists_eq_cons
  have hstart : afterBracket (name ++ c :: rest) = startTagFrom (name ++ c :: rest) := by
    rw [hcons]
    exact afterBracket_of_isLetter hd _
  obtain ⟨htake, hdrop⟩ := hname.split hc rest
  rw [next, if_pos rfl, hstart, startTagFrom, htake, hdrop]

/-! ### End tags, comments and text -/

theorem next_endTag (hname : IsTagName name) (rest : List Char) :
    next '<' ('/' :: name ++ ['>'] ++ rest) = (.endTag name, rest) := by
  obtain ⟨c, t, hcons, hc⟩ := hname.exists_eq_cons
  have hhead : (name ++ '>' :: rest).head?.any isLetter = true := by simp [hcons, hc]
  have hcut : cutAt ['>'] ('>' :: rest) = ([], rest) := Text.cutAt_single (List.not_mem_nil) rest
  obtain ⟨htake, hdrop⟩ := hname.split (c := '>') (by decide) rest
  rw [next, if_pos rfl, List.append_assoc, List.cons_append, List.singleton_append]
  simp only [afterBracket, hhead, if_true, endTagFrom]
  rw [htake, hdrop, hcut]

theorem next_comment (h : ¬['-', '-', '>'] <:+: data) (rest : List Char) :
    next '<' (['!', '-', '-'] ++ data ++ ['-', '-', '>'] ++ rest) = (.comment data, rest) := by
  have hcut : cutAt ['-', '-', '>'] (data ++ ['-', '-', '>'] ++ rest) = (data, rest) :=
    Text.cutAt_append h (show '>' ∉ ['-', '-'] by decide) rest
  show commentUpTo ['-', '-', '>'] (data ++ ['-', '-', '>'] ++ rest) = _
  rw [commentUpTo, hcut]

theorem next_text (h : '<' ∉ c :: s) (hrest : rest = [] ∨ rest.head? = some '<') :
    next c (s ++ rest) = (.text (c :: s), rest) := by
  rw [List.mem_cons, not_or] at h
  have hs : ∀ d ∈ s, (d != '<') = true := by
    intro d hd
    have : d ≠ '<' := fun he => h.2 (he ▸ hd)
    simpa using this
  rw [next, if_neg (Ne.symm h.1), textFrom, List.takeWhile_append_of_pos hs,
    List.dropWhile_append_of_pos hs]
  rcases hrest with rfl | hrest
  · simp
  · cases rest with
    | nil => cases hrest
    | cons d rest =>
      cases hrest
      rw [List.takeWhile_cons_of_neg (by decide), List.dropWhile_cons_of_neg (by decide), List.append_nil]

/-! ### Raw text -/

theorem beginsEndTag_of_ne (h : c ≠ '<') : beginsEndTag name (c :: s) = false := by
  unfold beginsEndTag
  split
  · rename_i heq
    exact absurd (List.cons.inj heq).1 h
  · rfl

theorem holdsEndTag_of_notMem (h : '<' ∉ s) : holdsEndTag name s = false := by
  induction s with
  | nil => rfl
  | cons c s ih =>
    rw [List.mem_cons, not_or] at h
    rw [holdsEndTag, beginsEndTag_of_ne (Ne.symm h.1), ih h.2]
    rfl

/-- An end tag does not begin in a text and end behind it, where another one stands. -/
theorem beginsEndTag_append (hname : '<' ∉ Text.lower name) (h : beginsEndTag name (c :: s) = false)
    (rest : List Char) : beginsEndTag name (c :: (s ++ '<' :: rest)) = false := by
  by_cases hc : c = '<'
  · subst hc
    cases s with
    | nil => simp [beginsEndTag]
    | cons d s =>
      by_cases hd : d = '/'
      · subst hd
        show Text.sameLetters ((s ++ '<' :: rest).take name.length) name = false
        rcases Nat.lt_or_ge s.length name.length with hlt | hge
        · -- the bracket would be in the name
          rw [Text.sameLetters, beq_eq_false_iff_ne]
          intro heq
          obtain ⟨k, hk⟩ : ∃ k, name.length - s.length = k + 1 := ⟨name.length - s.length - 1, by omega⟩
          have hmem : '<' ∈ (s ++ '<' :: rest).take name.length := by
            rw [List.take_append, hk, List.take_succ_cons]
            simp
          exact hname (heq ▸ List.mem_map.2 ⟨'<', hmem, by decide⟩)
        · rw [List.take_append_of_le_length hge]
          exact h
      · unfold beginsEndTag
        split
        · rename_i heq
          simp only [List.cons_append, List.cons.injEq] at heq
          exact absurd heq.2.1 hd
        · rfl
  · exact beginsEndTag_of_ne hc

/-- Text goes on up to the end tag. -/
theorem rawText_append (hname : '<' ∉ Text.lower name) (h : holdsEndTag name s = false)
    (rest : List Char) :
    rawText name (s ++ ('<' :: '/' :: name ++ ['>'] ++ rest)) = (s, '<' :: '/' :: name ++ ['>'] ++ rest) := by
  induction s with
  | nil =>
    have hbegins : beginsEndTag name ('<' :: ('/' :: name ++ ['>'] ++ rest)) = true := by
      simp [beginsEndTag, Text.sameLetters]
    show rawText name ('<' :: ('/' :: name ++ ['>'] ++ rest)) = _
    rw [rawText, if_pos hbegins]
    rfl
  | cons c s ih =>
    obtain ⟨hc, hs⟩ : beginsEndTag name (c :: s) = false ∧ holdsEndTag name s = false := by
      simpa [holdsEndTag] using h
    have hbegins := beginsEndTag_append hname hc ('/' :: name ++ ['>'] ++ rest)
    rw [List.cons_append, rawText, if_neg, ih hs]
    exact Bool.eq_false_iff.1 hbegins

/-! ### What is left -/

theorem trimStart_suffix (s : List Char) : trimStart s <:+ s :=
  List.dropWhile_suffix _

theorem attributeName_suffix (c : Char) (rest : List Char) : (attributeName c rest).2 <:+ rest := by
  rw [attributeName]
  split
  · exact List.suffix_refl rest
  · exact List.dropWhile_suffix _

theorem valueAfterEquals_suffix (s : List Char) : (valueAfterEquals s).2 <:+ s := by
  unfold valueAfterEquals
  split
  · exact List.nil_suffix
  · split
    · exact (Text.cutAt_suffix _ _).trans (List.suffix_cons _ _)
    · exact List.dropWhile_suffix _

theorem attributeValue_suffix (s : List Char) : (attributeValue s).2 <:+ s := by
  have hs := trimStart_suffix s
  unfold attributeValue
  split
  · rename_i rest heq
    rw [heq] at hs
    have hvalue := (valueAfterEquals_suffix (trimStart rest)).trans (trimStart_suffix rest)
    exact hvalue.trans ((List.suffix_cons '=' rest).trans hs)
  · exact hs

theorem attribute_suffix (c : Char) (rest : List Char) : (attributeValue (attributeName c rest).2).2 <:+ rest :=
  (attributeValue_suffix _).trans (attributeName_suffix c rest)

/-- The names of the attributes in a tag are read at places in the tag, and what is left behind the tag is
an end of the text. -/
theorem tagTail_suffix (s : List Char) :
    (tagTail s).rest <:+ s ∧
      ∀ a ∈ (tagTail s).attributes, ∃ c rest, c :: rest <:+ s ∧ a.1 = (attributeName c rest).1 := by
  fun_induction tagTail s with
  | case1 s h => exact ⟨List.nil_suffix, fun a ha => absurd ha List.not_mem_nil⟩
  | case2 s rest h | case3 s rest h =>
    refine ⟨List.IsSuffix.trans ?_ (h ▸ trimStart_suffix s), fun a ha => absurd ha List.not_mem_nil⟩
    simp [List.suffix_cons_iff]
  | case4 s rest _ h ih =>
    have hrest : rest <:+ s := (List.suffix_cons '/' rest).trans (h ▸ trimStart_suffix s)
    refine ⟨ih.1.trans hrest, fun a ha => ?_⟩
    obtain ⟨c, t, ht, hname⟩ := ih.2 a ha
    exact ⟨c, t, ht.trans hrest, hname⟩
  | case5 s c rest _ _ _ h name value tail ih =>
    have hall : c :: rest <:+ s := h ▸ trimStart_suffix s
    have hvalue : value.2 <:+ s := (attribute_suffix c rest).trans ((List.suffix_cons c rest).trans hall)
    refine ⟨ih.1.trans hvalue, List.forall_mem_cons.2 ⟨⟨c, rest, hall, rfl⟩, fun a ha => ?_⟩⟩
    obtain ⟨d, t, ht, hname⟩ := ih.2 a ha
    exact ⟨d, t, ht.trans hvalue, hname⟩

theorem startTagFrom_suffix (s : List Char) : (startTagFrom s).2 <:+ s :=
  (tagTail_suffix _).1.trans (List.dropWhile_suffix _)

theorem endTagFrom_suffix (s : List Char) : (endTagFrom s).2 <:+ s :=
  (Text.cutAt_suffix _ _).trans (List.dropWhile_suffix _)

theorem commentUpTo_suffix (mark s : List Char) : (commentUpTo mark s).2 <:+ s :=
  Text.cutAt_suffix mark s

theorem textFrom_suffix (c : Char) (rest : List Char) : (textFrom c rest).2 <:+ rest :=
  List.dropWhile_suffix _

theorem afterBracket_suffix (s : List Char) : (afterBracket s).2 <:+ s := by
  unfold afterBracket
  split
  · exact (commentUpTo_suffix _ _).trans ⟨['!', '-', '-'], rfl⟩
  · exact (commentUpTo_suffix _ _).trans (List.suffix_cons _ _)
  · exact (commentUpTo_suffix _ _).trans (List.suffix_cons _ _)
  · split
    · exact (endTagFrom_suffix _).trans (List.suffix_cons _ _)
    · exact (commentUpTo_suffix _ _).trans (List.suffix_cons _ _)
  · split
    · exact startTagFrom_suffix _
    · exact textFrom_suffix _ _

/-- What is left behind a token is an end of the text. -/
theorem next_suffix (c : Char) (rest : List Char) : (next c rest).2 <:+ rest := by
  rw [next]
  split
  · exact afterBracket_suffix rest
  · exact textFrom_suffix c rest

/-- Raw text goes on up to a bracket, or to the end of the text. -/
theorem head?_rawText (name s : List Char) : ∀ c ∈ (rawText name s).2.head?, c = '<' := by
  induction s with
  | nil =>
    intro c hc
    cases hc
  | cons d s ih =>
    intro c hc
    rw [rawText] at hc
    split at hc
    · rename_i hends
      by_contra hne
      rw [List.head?_cons, Option.mem_some_iff] at hc
      rw [beginsEndTag_of_ne (hc ▸ hne)] at hends
      cases hends
    · exact ih c hc

end Token

/-! ### Attributes of one name -/

theorem firstOfEachName_eq_self {attributes : List (String × String)}
    (h : (attributes.map Prod.fst).Nodup) : firstOfEachName attributes = attributes := by
  have hfold : ∀ (rest kept : List (String × String)), ((kept ++ rest).map Prod.fst).Nodup →
      rest.foldl (fun kept a => if kept.any (·.1 == a.1) then kept else kept ++ [a]) kept
        = kept ++ rest := by
    intro rest
    induction rest with
    | nil => intro kept _; exact (List.append_nil kept).symm
    | cons a rest ih =>
      intro kept hnodup
      have hnew : kept.any (·.1 == a.1) = false := by
        rw [List.map_append, List.nodup_append] at hnodup
        rw [List.any_eq_false]
        intro b hb he
        exact hnodup.2.2 b.1 (List.mem_map_of_mem hb) a.1 (by simp) (by simpa using he)
      rw [List.foldl_cons, hnew, if_neg Bool.false_ne_true, ih (kept ++ [a]) (by simpa using hnodup)]
      simp
  exact hfold attributes [] h

/-! ### Taking in a token -/

namespace Builder

open Token (IsTagName)

variable {b : Builder} {tag : Tag} {tree : Tree} {trees : List Tree} {name s rest : List Char}

/-- Adds trees behind the content read so far. -/
def addAll (b : Builder) (trees : List Tree) : Builder :=
  { b with content := trees.reverse ++ b.content }

/-- Whether text would continue other text. -/
def endsInText (b : Builder) : Bool :=
  b.content.head?.any Tree.isText

@[simp] theorem space_add (b : Builder) (tree : Tree) : (b.add tree).space = b.space := rfl

@[simp] theorem space_push (b : Builder) (tag : Tag) : (b.push tag).space = tag.contentSpace := rfl

@[simp] theorem endsInText_add (b : Builder) (tree : Tree) : (b.add tree).endsInText = tree.isText := rfl

@[simp] theorem endsInText_push (b : Builder) (tag : Tag) : (b.push tag).endsInText = false := rfl

@[simp] theorem addAll_nil (b : Builder) : b.addAll [] = b := rfl

theorem addAll_cons (b : Builder) (tree : Tree) (trees : List Tree) :
    b.addAll (tree :: trees) = (b.add tree).addAll trees := by
  simp [addAll, add]

theorem addText_eq_add (h : b.endsInText = false) (hs : s ≠ []) :
    b.addText s = b.add (.text (String.ofList s)) := by
  rw [addText, if_neg (by simpa using hs)]
  split
  · rename_i heq
    rw [endsInText, heq] at h
    cases h
  · rfl

/-- An end tag closes the element that has been opened last if it has its name. -/
theorem close_addAll_push (b : Builder) (trees : List Tree)
    (h : Text.sameLetters tag.name.toList name = true) :
    ((b.push tag).addAll trees).close name = b.add (.element tag trees) := by
  have hfind : ((b.push tag).addAll trees).frames.findIdx?
      (fun frame => Text.sameLetters frame.tag.name.toList name) = some 0 := by
    simp [addAll, push, List.findIdx?_cons, h]
  rw [close, hfind]
  simp [popMany, pop, addAll, push, add]

/-- Takes in one token. -/
theorem run_cons (b : Builder) {c : Char} {token : Token} (h : Token.next c s = (token, rest)) :
    b.run (c :: s) = (b.accept token rest).1.run (b.accept token rest).2 := by
  rw [run, h]

theorem accept_suffix (b : Builder) (token : Token) (rest : List Char) : (b.accept token rest).2 <:+ rest := by
  cases token with
  | startTag name attributes closed =>
    rw [accept, takeRawText]
    dsimp only
    split
    · exact List.suffix_refl rest
    · exact ⟨_, Token.append_rawText _ rest⟩
  | endTag | comment | text => exact List.suffix_refl rest

theorem run_comment (b : Builder) {data : List Char} (h : ¬['-', '-', '>'] <:+: data) (rest : List Char) :
    b.run (['<', '!', '-', '-'] ++ data ++ ['-', '-', '>'] ++ rest)
      = (b.add (.comment (String.ofList data))).run rest :=
  b.run_cons (Token.next_comment h rest)

theorem run_text (hs : s ≠ []) (hbracket : '<' ∉ s) (hb : b.endsInText = false)
    (hrest : rest = [] ∨ rest.head? = some '<') :
    b.run (s ++ rest) = (b.add (.text (String.ofList (decode s)))).run rest := by
  obtain ⟨c, t, rfl⟩ := List.exists_cons_of_ne_nil hs
  have := b.run_cons (Token.next_text hbracket hrest)
  rw [List.cons_append, this, ← addText_eq_add hb (Reference.decode_ne_nil hs)]
  rfl

theorem run_endTag (b : Builder) (hname : IsTagName name) (rest : List Char) :
    b.run ('<' :: '/' :: name ++ ['>'] ++ rest) = (b.close name).run rest :=
  b.run_cons (Token.next_endTag hname rest)

/-- All that has been read is closed at the end. -/
theorem finish_addAll_empty (space : Namespace) (trees : List Tree) :
    ((empty space).addAll trees).finish = trees := by
  simp [finish, addAll, empty, popMany]

end Builder

end LiveMarkup.Markup
