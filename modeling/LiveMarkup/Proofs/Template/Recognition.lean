import LiveMarkup.Proofs.Template.Finding
import LiveMarkup.Proofs.Template.Spreading
/-!
# Attribute holes behind quoted attributes

Whether a hole stands inside a start tag is decided on the text of the segments, and the quotes of attribute
values do not count there: a tag looks open if there is a bracket with a letter behind it and no closing
bracket anywhere behind that (`SeemsOpen`). A value without closing brackets does not disturb this, and then
the hole is found behind any number of attributes. A closing bracket in a value hides the tag that it is in,
unless a value behind it looks like the beginning of another one; the hole is then taken for content, and
its marker gets lost. A slash in front of a closing bracket is read as the end of a tag that closes itself,
in a value too, and the value changes. All of this is in `compile_holeBehind`.
-/

namespace LiveMarkup.Template

open Markup (Tree Tag Token Builder Namespace voidNames firstOfEachName)
open Markup.Reference (decode decode_of_notMem)
open Text (isLetter)

/-! ### Start tags with quoted attributes -/

/-- Attributes with their values between quotes, each a name and a value as it is written. -/
def quotedAll (attributes : List (List Char × List Char)) : List Char :=
  attributes.flatMap fun a => quoted a.1 '"' a.2

/-- A start tag up to the end of its attributes. -/
def tagFront (name : List Char) (attributes : List (List Char × List Char)) : List Char :=
  '<' :: name ++ quotedAll attributes

/-- Attributes as they are read. -/
def spelledAll (space : Namespace) (attributes : List (List Char × List Char)) : List (String × String) :=
  attributes.map fun a => (Tag.spelling space a.1, String.ofList (decode a.2))

/-- An element with attributes and nothing in it. -/
def emptyElement (space : Namespace) (name : List Char) (attributes : List (List Char × List Char)) :
    Tree :=
  .element ⟨String.ofList name, space, spelledAll space attributes⟩ []

/-- The start tag of an element, with attributes that come behind those between quotes. -/
def frontTag (space : Namespace) (name : List Char) (attributes : List (List Char × List Char))
    (behind : List (String × String)) : Tag :=
  ⟨String.ofList name, space, firstOfEachName (spelledAll space attributes ++ behind)⟩

/-- The template of an element with a hole as the value of its last attribute. -/
def holeBehind (id : Nat) (name : List Char) (attributes : List (List Char × List Char))
    (hole : List Char) : Template :=
  ⟨id, [String.ofList (tagFront name attributes ++ (' ' :: hole ++ ['='])),
    String.ofList ('>' :: endTag name)]⟩

/-- A bracket and a letter stand in a text, and no closing bracket behind them. -/
def SeemsOpen (s : List Char) : Prop :=
  ∃ front c rest, s = front ++ '<' :: c :: rest ∧ isLetter c = true ∧ '>' ∉ rest

/-- The name of an element with content that is read as markup. -/
structure IsOrdinaryName (name : List Char) : Prop where
  element : IsElementName name
  ordinary : name ∉ ["svg".toList, "script".toList, "xmp".toList, "title".toList, "style".toList,
    "textarea".toList]
  content : isVoidName name = false

/-- Attributes that can stand between quotes in one start tag, none of them a marker. -/
structure AreQuoted (space : Namespace) (attributes : List (List Char × List Char)) : Prop where
  named : ∀ n ∈ attributes.map Prod.fst, Token.IsAttributeName n
  unmarked : ∀ n ∈ attributes.map Prod.fst, ∀ i, Tag.spelling space n ≠ marker i
  distinct : ((attributes.map Prod.fst).map (Tag.spelling space)).Nodup
  closed : ∀ a ∈ attributes, '"' ∉ a.2

variable {space : Namespace} {name hole s : List Char} {attributes attributes' : List (List Char × List Char)}

theorem map_fst_spelledAll (space : Namespace) (attributes : List (List Char × List Char)) :
    (spelledAll space attributes).map Prod.fst
      = (attributes.map Prod.fst).map (Tag.spelling space) := by
  simp [spelledAll, Function.comp_def]

theorem AreQuoted.marker_notMem (h : AreQuoted space attributes) (i : Nat) :
    marker i ∉ (spelledAll space attributes).map Prod.fst := by
  rw [map_fst_spelledAll, List.mem_map]
  rintro ⟨n, hn, heq⟩
  exact h.unmarked n hn i heq

/-! ### What writing tags out does to the attributes -/

/-- Attributes in the values of which tags that seemed to close themselves have been written out. -/
def AreSpread : List (List Char × List Char) → List (List Char × List Char) → Prop :=
  List.Forall₂ fun a a' => a'.1 = a.1 ∧ Spread a.2 a'.2

theorem AreSpread.map_fst (h : AreSpread attributes attributes') :
    attributes'.map Prod.fst = attributes.map Prod.fst := by
  induction h with
  | nil => rfl
  | cons ha _ ih => rw [List.map_cons, List.map_cons, ha.1, ih]

theorem AreSpread.eq_self (h : AreSpread attributes attributes')
    (hplain : ∀ a ∈ attributes, ¬['/', '>'] <:+: a.2) : attributes' = attributes := by
  induction h with
  | nil => rfl
  | cons ha _ ih =>
    obtain ⟨hplain, hrest⟩ := List.forall_mem_cons.1 hplain
    rw [ih hrest, Prod.ext ha.1 (ha.2.eq_self hplain)]

theorem AreQuoted.spread (h : AreQuoted space attributes) (hspread : AreSpread attributes attributes') :
    AreQuoted space attributes' := by
  refine ⟨?_, ?_, ?_, ?_⟩
  · rw [hspread.map_fst]
    exact h.named
  · rw [hspread.map_fst]
    exact h.unmarked
  · rw [hspread.map_fst]
    exact h.distinct
  · have hclosed := h.closed
    clear h
    induction hspread with
    | nil => exact hclosed
    | cons ha _ ih =>
      obtain ⟨hclosed, hrest⟩ := List.forall_mem_cons.1 hclosed
      exact List.forall_mem_cons.2 ⟨ha.2.quote_notMem hclosed, ih hrest⟩

theorem notMem_of_isAttributeName {n : List Char} (h : Token.IsAttributeName n) : '/' ∉ n ∧ '>' ∉ n := by
  rcases h with rfl | ⟨-, hparts⟩
  · decide
  · have hnot : ∀ d, Token.isAttributeNamePart d = false → d ∉ n := by
      intro d hd hmem
      rw [hparts d hmem] at hd
      cases hd
    exact ⟨hnot '/' (by decide), hnot '>' (by decide)⟩

/-- The quotes hold the values together. -/
theorem spread_quotedAll (hnamed : ∀ n ∈ attributes.map Prod.fst, Token.IsAttributeName n) {t : List Char}
    (h : Spread (quotedAll attributes) t) :
    ∃ attributes', t = quotedAll attributes' ∧ AreSpread attributes attributes' := by
  induction attributes generalizing t with
  | nil => exact ⟨[], h.eq_self_of_notMem List.not_mem_nil, .nil⟩
  | cons a attributes ih =>
    obtain ⟨hname, hnamed⟩ := List.forall_mem_cons.1 hnamed
    have hsplit : quotedAll (a :: attributes)
        = (' ' :: a.1 ++ ['=', '"']) ++ (a.2 ++ (['"'] ++ quotedAll attributes)) := by
      simp [quotedAll, quoted]
    rw [hsplit] at h
    obtain ⟨front, t, rfl, hfront, hback⟩ := h.of_append (by simp [List.getLast?_cons])
    obtain ⟨value, t, rfl, hvalue, hbehind⟩ := hback.of_append (by simp)
    obtain ⟨quote, t, rfl, hquote, hothers⟩ := hbehind.of_append (by simp)
    obtain rfl := hfront.eq_self_of_notMem (by simp [(notMem_of_isAttributeName hname).1])
    obtain rfl := hquote.eq_self_of_notMem (by simp)
    obtain ⟨attributes', rfl, hrest⟩ := ih hnamed hothers
    exact ⟨(a.1, value) :: attributes', by simp [quotedAll, quoted], .cons ⟨rfl, hvalue⟩ hrest⟩

theorem expandSelfClosing_tagFront (hname : IsElementName name)
    (hnamed : ∀ n ∈ attributes.map Prod.fst, Token.IsAttributeName n) :
    ∃ attributes', expandSelfClosing (tagFront name attributes) = tagFront name attributes' ∧
      AreSpread attributes attributes' := by
  have hslash : '/' ∉ name := fun hmem => hname.ne hmem '/' (by decide) rfl
  obtain ⟨front, t, heq, hfront, h⟩ := (spread_expandSelfClosing (tagFront name attributes)).of_append
    (s := '<' :: name) fun hlast => absurd (List.mem_of_getLast? hlast) (by simp [hslash])
  obtain rfl := hfront.eq_self_of_notMem (by simp [hslash])
  obtain ⟨attributes', rfl, hspread⟩ := spread_quotedAll hnamed h
  exact ⟨attributes', heq, hspread⟩

/-! ### How the hole is marked -/

theorem hasTagStart_cons_iff {c : Char} :
    hasTagStart (c :: s) = true ↔
      (c = '<' ∧ ∃ d e rest, s = d :: e :: rest ∧ isLetter d = true) ∨ hasTagStart s = true := by
  rw [hasTagStart.eq_def]
  split
  · rename_i heq
    cases heq
    simp
  · rename_i hno heq
    cases heq
    constructor
    · exact .inr
    · rintro (⟨rfl, d, e, rest, rfl, -⟩ | h)
      · exact (hno _ _ _ rfl rfl).elim
      · exact h
  · rename_i heq
    cases heq

/-- A tag that starts in front of text without brackets has its name there. -/
theorem exists_tagStart (hs : IsBare (' ' :: s)) {front : List Char}
    (h : hasTagStart (front ++ ' ' :: s) = true) :
    ∃ u c v, front = u ++ '<' :: c :: v ∧ isLetter c = true := by
  induction front with
  | nil =>
    rw [List.nil_append, hasTagStart_eq_false hs] at h
    cases h
  | cons d front ih =>
    rcases hasTagStart_cons_iff.1 h with ⟨rfl, c, e, rest, heq, hc⟩ | h
    · cases front with
      | nil =>
        cases heq
        cases hc
      | cons c' front =>
        cases (List.cons.inj heq).1
        exact ⟨[], c, front, rfl, hc⟩
    · obtain ⟨u, c, v, rfl, hc⟩ := ih h
      exact ⟨d :: u, c, v, rfl, hc⟩

/-- A segment with an attribute at its end ends inside a start tag if what is in front of the attribute seems to.
-/
theorem endsInTag_iff_seemsOpen (hs : IsBare (' ' :: s)) (front : List Char) :
    endsInTag (front ++ ' ' :: s) = true ↔ SeemsOpen front := by
  have hclose : '>' ∉ ' ' :: s := fun hmem => (hs _ hmem).2 rfl
  constructor
  · intro h
    rw [endsInTag_append front hclose] at h
    obtain ⟨u, c, v, heq, hc⟩ := exists_tagStart hs h
    have hsplit := List.takeWhile_append_dropWhile (p := (· != '>')) (l := front.reverse)
    have hv : '>' ∉ v := by
      intro hmem
      have hmem : '>' ∈ front.reverse.takeWhile (· != '>') := by
        rw [← List.mem_reverse, heq]
        simp [hmem]
      have := List.mem_takeWhile_imp hmem
      revert this
      decide
    refine ⟨(front.reverse.dropWhile (· != '>')).reverse ++ u, c, v, ?_, hc, hv⟩
    rw [List.append_assoc, ← heq, ← List.reverse_append, hsplit, List.reverse_reverse]
  · rintro ⟨u, c, v, rfl, hc, hv⟩
    have hcne : '>' ≠ c := by
      rintro rfl
      cases hc
    obtain ⟨d, w, hback⟩ : ∃ d w, v ++ ' ' :: s = d :: w := by
      cases v with
      | nil => exact ⟨' ', s, rfl⟩
      | cons d v => exact ⟨d, v ++ ' ' :: s, rfl⟩
    have hbehind : '>' ∉ '<' :: c :: v ++ ' ' :: s := by
      simp only [List.mem_append, List.mem_cons, not_or] at hclose ⊢
      exact ⟨⟨by decide, hcne, hv⟩, hclose⟩
    rw [List.append_assoc, endsInTag_append u hbehind]
    exact hasTagStart_append _ (hasTagStart_cons_iff.2 (.inl ⟨rfl, c, d, w, by simp [hback], hc⟩))

instance (s : List Char) : Decidable (SeemsOpen s) :=
  decidable_of_iff (endsInTag (s ++ [' ']) = true) (endsInTag_iff_seemsOpen (by simp [IsBare]) s)

/-- The marked text of a template with a hole as the value of an attribute. -/
theorem joined_holeBehind (hhole : IsAttributeName hole) (front back : List Char) :
    joined [] 0 [front ++ (' ' :: hole ++ ['=']), back ++ ['>']] =
      front ++ ((if endsInTag (front ++ (' ' :: hole ++ ['='])) then
        quoted (marker 0).toList '"' hole
      else ' ' :: hole ++ '=' :: markerComment 0) ++ (back ++ ['>'])) := by
  have htail := openAttribute?_append hhole .bare front
  rw [List.append_assoc, show '=' :: Quoting.bare.mark?.toList = ['='] from rfl] at htail
  have hsegments : segmentsFrom (front ++ (' ' :: hole ++ ['='])) (none :: plain (back ++ ['>']))
      = [front ++ (' ' :: hole ++ ['=']), back ++ ['>']] := by
    have := segmentsFrom_plain [] (back ++ ['>']) []
    rw [List.append_nil, List.nil_append] at this
    rw [segmentsFrom, this]
    rfl
  have hlast : ∀ before i, joined before i (segmentsFrom [] (plain (back ++ ['>']))) = back ++ ['>'] := by
    intro before i
    have hclosed := leavesTagOpen_closed back isBare_nil before
    rw [List.append_nil] at hclosed
    have := segmentsFrom_plain [] (back ++ ['>']) []
    rw [List.append_nil, List.nil_append] at this
    rw [this, joined_last hclosed]
  cases hopen : endsInTag (front ++ (' ' :: hole ++ ['='])) with
  | true =>
    have hinside : leavesTagOpen [front ++ (' ' :: hole ++ ['='])] = true := by
      rw [leavesTagOpen, if_pos hopen]
    rw [← hsegments, joined_hole_inside htail hinside, hlast]
    simp [OpenAttribute.marked, quoted, Quoting.mark?]
  | false =>
    have houtside : leavesTagOpen [front ++ (' ' :: hole ++ ['='])] = false := by
      rw [leavesTagOpen, hopen, if_neg Bool.false_ne_true, leavesTagOpen, ite_self]
    rw [← hsegments, joined_hole_outside houtside, hlast]
    simp

/-! ### How the tag is read -/

theorem tagTail_quotedAll (hnamed : ∀ n ∈ attributes.map Prod.fst, Token.IsAttributeName n)
    (hclosed : ∀ a ∈ attributes, '"' ∉ a.2) (rest : List Char) :
    Token.tagTail (quotedAll attributes ++ rest)
      = ⟨attributes.map (fun a => (a.1, decode a.2)) ++ (Token.tagTail rest).attributes,
          (Token.tagTail rest).closed, (Token.tagTail rest).rest⟩ := by
  induction attributes with
  | nil => rfl
  | cons a attributes ih =>
    obtain ⟨hname, hnamed⟩ := List.forall_mem_cons.1 hnamed
    obtain ⟨hquote, hclosed⟩ := List.forall_mem_cons.1 hclosed
    rw [quotedAll, List.flatMap_cons, List.append_assoc, quoted,
      Token.tagTail_attribute hname (.inl rfl) hquote]
    have := ih hnamed hclosed
    rw [quotedAll] at this
    rw [this]
    rfl

/-- A marker comment without its closing bracket. -/
def bareMarker (i : Nat) : List Char :=
  ['<', '!', '-', '-'] ++ (marker i).toList ++ ['-', '-']

theorem markerComment_append (i : Nat) (rest : List Char) :
    markerComment i ++ rest = bareMarker i ++ '>' :: rest := by
  simp [markerComment, bareMarker]

theorem bareMarker_parts {i : Nat} {c : Char} (hc : c ∈ bareMarker i) :
    Token.isBareValuePart c = true ∧ c ≠ '&' ∧ c ≠ '>' := by
  have hends : ∀ d ∈ ['<', '!', '-'], Token.isBareValuePart d = true ∧ d ≠ '&' ∧ d ≠ '>' := by
    intro d hd
    simp only [List.mem_cons, List.not_mem_nil, or_false] at hd
    rcases hd with rfl | rfl | rfl <;> exact ⟨rfl, by decide, by decide⟩
  simp only [bareMarker, List.mem_append] at hc
  rcases hc with (hc | hc) | hc
  · exact hends c (by simpa using hc)
  · have hpart := (isAttributeName_marker i).parts c hc
    have hblank := isBlank_of_isNamePart hpart
    have hclose := ne_of_isNamePart hpart '>'
    exact ⟨by simp [Token.isBareValuePart, hblank, hclose], ne_of_isNamePart hpart '&', hclose⟩
  · exact hends c (by simp_all)

theorem attributeValue_bareMarker (i : Nat) (rest : List Char) :
    Token.attributeValue ('=' :: (bareMarker i ++ '>' :: rest)) = (bareMarker i, '>' :: rest) := by
  have hequals : Text.trimStart ('=' :: (bareMarker i ++ '>' :: rest))
      = '=' :: (bareMarker i ++ '>' :: rest) := List.dropWhile_cons_of_neg (by decide)
  have htrim : Text.trimStart (bareMarker i ++ '>' :: rest) = bareMarker i ++ '>' :: rest :=
    List.dropWhile_cons_of_neg (by decide)
  have hparts := fun c hc => (bareMarker_parts (i := i) (c := c) hc).1
  have htake : (bareMarker i ++ '>' :: rest).takeWhile Token.isBareValuePart = bareMarker i := by
    rw [List.takeWhile_append_of_pos hparts, List.takeWhile_cons_of_neg (by decide), List.append_nil]
  have hdrop : (bareMarker i ++ '>' :: rest).dropWhile Token.isBareValuePart = '>' :: rest := by
    rw [List.dropWhile_append_of_pos hparts, List.dropWhile_cons_of_neg (by decide)]
  have hdecode : decode (bareMarker i) = bareMarker i :=
    decode_of_notMem fun hmem => (bareMarker_parts hmem).2.1 rfl
  have hvalue : Token.valueAfterEquals (bareMarker i ++ '>' :: rest) = (bareMarker i, '>' :: rest) := by
    obtain ⟨w, hw⟩ : ∃ w, bareMarker i = '<' :: w := ⟨_, rfl⟩
    rw [hw, List.cons_append] at htake hdrop ⊢
    rw [hw] at hdecode
    rw [Token.valueAfterEquals, if_neg (by decide), htake, hdrop, hdecode]
  simp only [Token.attributeValue, hequals, htrim, hvalue]

/-- A marker comment that stands for a value is read as a value without quotes, and it ends the tag. -/
theorem tagTail_markerComment (hname : IsAttributeName name) (i : Nat) (rest : List Char) :
    Token.tagTail (' ' :: name ++ '=' :: (markerComment i ++ rest))
      = ⟨[(name, bareMarker i)], false, rest⟩ := by
  rw [markerComment_append, Token.tagTail_named hname.isTokenName (attributeValue_bareMarker i rest),
    Token.tagTail_close]

theorem run_textOf {b : Builder} {rest : List Char} (hbracket : '<' ∉ s) (hreference : '&' ∉ s)
    (hb : b.endsInText = false) (hrest : rest = [] ∨ rest.head? = some '<') :
    b.run (s ++ rest) = (b.addAll (textOf s)).run rest := by
  cases s with
  | nil => rfl
  | cons c s =>
    rw [Builder.run_text (List.cons_ne_nil c s) hbracket hb hrest, decode_of_notMem hreference]
    rfl

/-- An element with text or nothing in it is read from its start tag and its end tag. -/
theorem parse_tagFront {back content : List Char} {behind : List (List Char × List Char)}
    (hname : IsOrdinaryName name) (h : AreQuoted space attributes)
    (hback : ∃ c t, back = c :: t ∧ ¬Token.isTagNamePart c = true)
    (htail : Token.tagTail back = ⟨behind, false, content ++ endTag name⟩)
    (hbracket : '<' ∉ content) (hreference : '&' ∉ content) :
    Markup.parse space (String.ofList (tagFront name attributes ++ back))
      = [.element (frontTag space name attributes
          (behind.map fun a => (Tag.spelling space a.1, String.ofList a.2))) (textOf content)] := by
  generalize htag : frontTag space name attributes
    (behind.map fun a => (Tag.spelling space a.1, String.ofList a.2)) = tag
  have hnamed : tag.name.toList = name := by rw [← htag]; exact String.toList_ofList
  have hsvg : name ≠ "svg".toList := fun heq => hname.ordinary (heq ▸ List.mem_cons_self)
  -- the attributes do not continue the name
  obtain ⟨c, t, hcons, hc⟩ : ∃ c t, quotedAll attributes ++ back = c :: t ∧
      ¬Token.isTagNamePart c = true := by
    cases attributes with
    | nil => exact hback
    | cons a attributes => exact ⟨' ', _, rfl, by decide⟩
  have hnext : Token.next '<' (name ++ (quotedAll attributes ++ back))
      = (.startTag name (attributes.map (fun a => (a.1, decode a.2)) ++ behind) false,
          content ++ endTag name) := by
    rw [hcons, Token.next_startTag hname.element.isTagName hc, ← hcons,
      tagTail_quotedAll h.named h.closed, htail]
  have hstart : Tag.ofStart space name (attributes.map (fun a => (a.1, decode a.2)) ++ behind) = tag := by
    rw [Tag.ofStart, hname.element.spaceOf_eq hsvg, hname.element.spelling_eq, ← htag]
    simp [frontTag, spelledAll, Function.comp_def]
  have hvoid : tag.isVoid = false := by
    have : voidNames.contains tag.name = false := by rw [← htag]; exact hname.content
    rw [Tag.isVoid, this, Bool.and_false]
  have haccept : (Builder.empty space).accept
      (.startTag name (attributes.map (fun a => (a.1, decode a.2)) ++ behind) false)
        (content ++ endTag name) = ((Builder.empty space).push tag, content ++ endTag name) := by
    rw [Builder.accept, show (Builder.empty space).space = space from rfl, hstart, Builder.start, hvoid,
      Builder.takeRawText, rawText?_eq_none (by rw [hnamed]; exact hname.ordinary)]
    simp
  have hrun : (Builder.empty space).run ('<' :: (name ++ (quotedAll attributes ++ back)))
      = (Builder.empty space).addAll [.element tag (textOf content)] := by
    have hend := ((Builder.empty space).push tag |>.addAll (textOf content)).run_endTag
      hname.element.isTagName []
    rw [Builder.close_addAll_push _ _ (by simp [hnamed, Text.sameLetters]), List.append_nil,
      Builder.run] at hend
    rw [Builder.run_cons _ hnext, haccept, run_textOf hbracket hreference rfl (.inr rfl)]
    exact hend
  rw [Markup.parse, String.toList_ofList, tagFront, List.append_assoc, List.cons_append, hrun,
    Builder.finish_addAll_empty]

/-! ### The text that is read -/

theorem getLast?_tagFront_ne (hname : IsElementName name) (attributes : List (List Char × List Char)) :
    (tagFront name attributes).getLast? ≠ some '/' := by
  have hattributes : (quotedAll attributes).getLast? ≠ some '/' := by
    induction attributes with
    | nil => simp [quotedAll]
    | cons a attributes ih =>
      exact getLast?_append_ne (by simp [quoted, List.getLast?_cons]) ih
  have hslash : '/' ∉ '<' :: name := by
    simpa using fun hmem => hname.ne hmem '/' (by decide) rfl
  exact getLast?_append_ne (fun hlast => hslash (List.mem_of_getLast? hlast)) hattributes

/-- Behind the attributes nothing is written out. -/
theorem expandSelfClosing_tagFront_append (hname : IsElementName name)
    (attributes : List (List Char × List Char)) {u rest : List Char} (hu : '>' ∉ u)
    (hlast : u.getLast? ≠ some '/') (hcalm : IsCalm (u ++ '>' :: rest)) :
    expandSelfClosing (tagFront name attributes ++ (u ++ '>' :: rest))
      = expandSelfClosing (tagFront name attributes) ++ (u ++ '>' :: rest) := by
  have hself := hcalm []
  rw [List.append_nil, expandSelfClosing, List.append_nil] at hself
  rw [expandSelfClosing_append (getLast?_tagFront_ne hname attributes) hu hlast, hself]

/-- The text that is read for a template with a hole as the value of an attribute. -/
theorem markHoles_holeBehind (hname : IsElementName name) (hhole : IsAttributeName hole) (id : Nat)
    (attributes : List (List Char × List Char)) :
    markHoles (holeBehind id name attributes hole).segments =
      String.ofList (expandSelfClosing (tagFront name attributes) ++
        ((if endsInTag (tagFront name attributes ++ (' ' :: hole ++ ['='])) then
          quoted (marker 0).toList '"' hole
        else ' ' :: hole ++ '=' :: markerComment 0) ++ '>' :: endTag name)) := by
  have hback : '>' :: endTag name = ('>' :: '<' :: '/' :: name) ++ ['>'] := rfl
  have hsegments : (holeBehind id name attributes hole).segments.map String.toList
      = [tagFront name attributes ++ (' ' :: hole ++ ['=']), ('>' :: '<' :: '/' :: name) ++ ['>']] := by
    simp [holeBehind, hback]
  have htrim : ∀ t, Text.trim (tagFront name attributes ++ (t ++ '>' :: endTag name))
      = tagFront name attributes ++ (t ++ '>' :: endTag name) := by
    intro t
    refine trim_eq_self rfl ?_
    rw [hback, ← List.append_assoc, ← List.append_assoc, List.getLast?_concat]
    rfl
  have hend : IsCalm ('>' :: endTag name) :=
    (isCalm_of_notMem (s := ['>']) (by decide)).append (isCalm_endTag hname)
  have hbare : IsBare (' ' :: hole ++ ['=']) :=
    isBare_append.2 ⟨isBare_cons.2 ⟨by decide, hhole.isBare⟩, by simp [IsBare]⟩
  rw [markHoles, hsegments, joined_holeBehind hhole, ← hback, htrim]
  split
  · have hquoted : IsBare (quoted (marker 0).toList '"' hole) := by
      have := (isAttributeName_marker 0).isBare
      simp_all [quoted, isBare_append, isBare_cons, isBare_nil, hhole.isBare]
    rw [expandSelfClosing_tagFront_append hname attributes (fun hmem => (hquoted _ hmem).2 rfl)
      (by simp [quoted, List.getLast?_cons]) (hquoted.isCalm.append hend)]
  · have hcalm := (hbare.isCalm.append (isCalm_markerComment 0)).append hend
    have hsplit : ' ' :: hole ++ '=' :: markerComment 0 ++ '>' :: endTag name
        = (' ' :: hole ++ ['='] ++ bareMarker 0) ++ '>' :: '>' :: endTag name := by
      have := markerComment_append 0 ('>' :: endTag name)
      simp [this]
    have hclose : '>' ∉ ' ' :: hole ++ ['='] ++ bareMarker 0 := by
      rw [List.mem_append, not_or]
      exact ⟨fun hmem => (hbare _ hmem).2 rfl, fun hmem => (bareMarker_parts hmem).2.2 rfl⟩
    rw [hsplit, expandSelfClosing_tagFront_append hname attributes hclose
      (by simp [bareMarker, List.getLast?_cons]) (by rw [← hsplit]; simpa using hcalm)]

/-! ### What is found -/

/-- The search through an element with text or nothing in it is that through its attributes. -/
theorem searchAll_element {tag : Tag} (hname : IsOrdinaryName tag.name.toList) (content : List Char) :
    searchAll [] 0 ⟨1, []⟩ [.element tag (textOf content)] =
      ([.element { tag with attributes := (takeMarkers [0] tag.attributes ⟨1, []⟩).1 } (textOf content)],
        (takeMarkers [0] tag.attributes ⟨1, []⟩).2) := by
  have hplain : tag.name.toList ∉ ["style".toList, "textarea".toList] := fun hmem =>
    hname.ordinary
      (List.mem_append_right ["svg".toList, "script".toList, "xmp".toList, "title".toList] hmem)
  have hdone : (⟨1, []⟩ : Search).isDone = false := rfl
  simp only [searchAll, searchTree, hdone, searchTag, holdsTextMarker_element hname.element hplain,
    searchAll_textOf, List.nil_append, Bool.false_eq_true, if_false]

theorem spelling_marker (space : Namespace) (i : Nat) :
    Tag.spelling space (marker i).toList = marker i := by
  cases space with
  | html => rw [Tag.spelling, lower_marker, String.ofList_toList]
  | svg => exact String.ofList_toList

/-- One marker is taken off behind attributes that are none. -/
theorem takeMarkers_marked {s : Search} {front : List (String × String)}
    (h : ∀ i, marker i ∉ front.map Prod.fst) (path : List Nat) (value : String) :
    takeMarkers path (front ++ [(s.wanted, value)]) s = (front, s.record (.attr value) path) := by
  rw [takeMarkers_append (h _), List.append_nil, takeMarkers_of_notMem (h _)]

/-- A hole that is marked inside the tag is found there, and its marker is taken off. -/
theorem searchAll_marked (hname : IsOrdinaryName name) (hhole : IsAttributeName hole)
    (h : AreQuoted space attributes) :
    searchAll [] 0 ⟨1, []⟩ (Markup.parse space (String.ofList (tagFront name attributes
        ++ (quoted (marker 0).toList '"' hole ++ '>' :: endTag name))))
      = ([emptyElement space name attributes], ⟨1, [⟨.attr (String.ofList hole), [0]⟩]⟩) := by
  have hquote : '"' ∉ hole := fun hmem => ne_of_isNamePart (hhole.parts _ hmem) '"' (by decide) rfl
  have hdecode : decode hole = hole :=
    decode_of_notMem fun hmem => ne_of_isNamePart (hhole.parts _ hmem) '&' (by decide) rfl
  have htail : Token.tagTail (quoted (marker 0).toList '"' hole ++ '>' :: endTag name)
      = ⟨[((marker 0).toList, hole)], false, [] ++ endTag name⟩ := by
    rw [quoted, Token.tagTail_attribute (isAttributeName_marker 0).isTokenName (.inl rfl) hquote, hdecode,
      Token.tagTail_close]
    rfl
  have hnodup : ((spelledAll space attributes ++ [(marker 0, String.ofList hole)]).map Prod.fst).Nodup := by
    have hmarker := h.marker_notMem 0
    rw [map_fst_spelledAll] at hmarker
    rw [List.map_append, map_fst_spelledAll, List.map_singleton, List.nodup_append]
    refine ⟨h.distinct, List.nodup_singleton _, fun n hn m hm heq => hmarker ?_⟩
    obtain rfl : m = marker 0 := List.mem_singleton.1 hm
    exact heq ▸ hn
  have htag : frontTag space name attributes [(marker 0, String.ofList hole)]
      = ⟨String.ofList name, space, spelledAll space attributes ++ [(marker 0, String.ofList hole)]⟩ := by
    rw [frontTag, Markup.firstOfEachName_eq_self hnodup]
  have htaken : takeMarkers [0] (spelledAll space attributes ++ [(marker 0, String.ofList hole)]) ⟨1, []⟩
      = (spelledAll space attributes, ⟨1, [⟨.attr (String.ofList hole), [0]⟩]⟩) :=
    takeMarkers_marked (s := ⟨1, []⟩) h.marker_notMem [0] (String.ofList hole)
  have hback : ∃ c t, quoted (marker 0).toList '"' hole ++ '>' :: endTag name = c :: t ∧
      ¬Token.isTagNamePart c = true := ⟨' ', _, rfl, by decide⟩
  rw [parse_tagFront hname h hback htail List.not_mem_nil List.not_mem_nil, List.map_singleton, spelling_marker, htag, searchAll_element (by simpa using hname), htaken]
  rfl

/-- A hole that is marked as content inside the tag is found nowhere. -/
theorem searchAll_lost (hname : IsOrdinaryName name) (hhole : IsAttributeName hole)
    (hunmarked : ∀ i, Tag.spelling space hole ≠ marker i) (h : AreQuoted space attributes) :
    (searchAll [] 0 ⟨1, []⟩ (Markup.parse space (String.ofList (tagFront name attributes
      ++ (' ' :: hole ++ '=' :: markerComment 0 ++ '>' :: endTag name))))).2 = ⟨1, []⟩ := by
  have htail : Token.tagTail (' ' :: hole ++ '=' :: markerComment 0 ++ '>' :: endTag name)
      = ⟨[(hole, bareMarker 0)], false, ['>'] ++ endTag name⟩ := by
    rw [List.append_assoc]
    exact tagTail_markerComment hhole 0 _
  have hmarker : marker 0 ∉ (frontTag space name attributes
      [(Tag.spelling space hole, String.ofList (bareMarker 0))]).attributes.map Prod.fst := by
    intro hmem
    obtain ⟨a, ha, heq⟩ := List.mem_map.1 hmem
    rcases List.mem_append.1 ((Markup.firstOfEachName_spec _).2 ha) with ha | ha
    · exact h.marker_notMem 0 (heq ▸ List.mem_map_of_mem ha)
    · rw [List.mem_singleton.1 ha] at heq
      exact hunmarked 0 heq
  have htaken : ∀ front : List (String × String), marker 0 ∉ front.map Prod.fst →
      takeMarkers [0] front ⟨1, []⟩ = (front, ⟨1, []⟩) := fun _ h => takeMarkers_of_notMem h
  have hback : ∃ c t, ' ' :: hole ++ '=' :: markerComment 0 ++ '>' :: endTag name = c :: t ∧
      ¬Token.isTagNamePart c = true := ⟨' ', _, rfl, by decide⟩
  rw [parse_tagFront hname h hback htail (by decide) (by decide), List.map_singleton,
    searchAll_element (by simpa [frontTag] using hname), htaken _ hmarker]

/-! ### Compiling -/

/-- Values without closing brackets leave their tag open. -/
theorem seemsOpen_tagFront (hname : IsElementName name)
    (hnamed : ∀ n ∈ attributes.map Prod.fst, Token.IsAttributeName n)
    (hvalues : ∀ a ∈ attributes, '>' ∉ a.2) : SeemsOpen (tagFront name attributes) := by
  have hquoted : '>' ∉ quotedAll attributes := by
    intro hmem
    obtain ⟨a, ha, hmem⟩ := List.mem_flatMap.1 hmem
    have hname := (notMem_of_isAttributeName (hnamed a.1 (List.mem_map_of_mem ha))).2
    simp [quoted, hname, hvalues a ha] at hmem
  obtain ⟨c, rest, rfl, hc⟩ := hname.exists_eq_cons
  have hrest : '>' ∉ rest := fun hmem => (hname.isBare _ (List.mem_cons_of_mem c hmem)).2 rfl
  exact ⟨[], c, rest ++ quotedAll attributes, rfl, hc, by simp [hrest, hquoted]⟩

theorem endsInTag_tagFront (hhole : IsAttributeName hole) (front : List Char) :
    endsInTag (front ++ (' ' :: hole ++ ['='])) = true ↔ SeemsOpen front := by
  refine endsInTag_iff_seemsOpen (s := hole ++ ['=']) ?_ front
  exact isBare_cons.2 ⟨by decide, isBare_append.2 ⟨hhole.isBare, by simp [IsBare]⟩⟩

/-- The element is read without the hole as it was written. -/
theorem parse_emptyElement (hname : IsOrdinaryName name) (h : AreQuoted space attributes) :
    Markup.parse space (String.ofList (tagFront name attributes ++ '>' :: endTag name))
      = [emptyElement space name attributes] := by
  have hback : ∃ c t, '>' :: endTag name = c :: t ∧ ¬Token.isTagNamePart c = true :=
    ⟨'>', _, rfl, by decide⟩
  have htail : Token.tagTail ('>' :: endTag name) = ⟨[], false, [] ++ endTag name⟩ :=
    Token.tagTail_close _
  have hnodup : ((spelledAll space attributes).map Prod.fst).Nodup := by
    rw [map_fst_spelledAll]
    exact h.distinct
  rw [parse_tagFront hname h hback htail List.not_mem_nil List.not_mem_nil, List.map_nil, frontTag,
    List.append_nil, Markup.firstOfEachName_eq_self hnodup]
  rfl

/-- A hole in a tag that seems open is found on the element. -/
theorem compile_of_seemsOpen {c : Catalogue} (hc : c.Sound) (hname : IsOrdinaryName name)
    (h : AreQuoted space attributes) (hhole : IsAttributeName hole) (id : Nat)
    (hopen : SeemsOpen (tagFront name attributes)) :
    ∃ attributes', expandSelfClosing (tagFront name attributes) = tagFront name attributes' ∧
      AreSpread attributes attributes' ∧
      (c.compile space (holeBehind id name attributes hole)).1
        = .ok ⟨[emptyElement space name attributes'], [⟨.attr (String.ofList hole), [0]⟩]⟩ := by
  obtain ⟨attributes', hexpand, hspread⟩ := expandSelfClosing_tagFront hname.element h.named
  have hmarkup := markHoles_holeBehind hname.element hhole id attributes
  rw [if_pos ((endsInTag_tagFront hhole _).2 hopen), hexpand] at hmarkup
  have hcompiled : ((holeBehind id name attributes hole).compilation space).compiled
      = ⟨[emptyElement space name attributes'], [⟨.attr (String.ofList hole), [0]⟩]⟩ := by
    rw [compilation, hmarkup, show (holeBehind id name attributes hole).gaps = 1 from rfl,
      searchAll_marked hname hhole (h.spread hspread)]
    rfl
  have hcomplete : ((holeBehind id name attributes hole).compilation space).isComplete = true := by
    rw [Compilation.isComplete, hcompiled]
    rfl
  obtain ⟨c', hcompile, -⟩ := Catalogue.compile_eq hc hcomplete
  exact ⟨attributes', hexpand, hspread, by rw [hcompile, hcompiled]⟩

/-- A hole in a tag that does not seem open is taken for content and gets lost. -/
theorem compile_of_not_seemsOpen {c : Catalogue} (hc : c.Sound) (hname : IsOrdinaryName name)
    (h : AreQuoted space attributes) (hhole : IsAttributeName hole)
    (hunmarked : ∀ i, Tag.spelling space hole ≠ marker i) (id : Nat)
    (hopen : ¬SeemsOpen (tagFront name attributes)) :
    (c.compile space (holeBehind id name attributes hole)).1
      = .error (.markersLost (markHoles (holeBehind id name attributes hole).segments) 1 0) := by
  obtain ⟨attributes', hexpand, hspread⟩ := expandSelfClosing_tagFront hname.element h.named
  have hmarkup := markHoles_holeBehind hname.element hhole id attributes
  rw [if_neg (mt (endsInTag_tagFront hhole _).1 hopen), hexpand] at hmarkup
  have hholes : ((holeBehind id name attributes hole).compilation space).compiled.holes = [] := by
    rw [compilation, hmarkup, show (holeBehind id name attributes hole).gaps = 1 from rfl]
    dsimp only
    rw [searchAll_lost hname hhole hunmarked (h.spread hspread)]
    rfl
  have hlost : ((holeBehind id name attributes hole).compilation space).isComplete = false := by
    rw [Compilation.isComplete, hholes]
    rfl
  rw [Catalogue.compile_of_lost hc hlost, hholes]
  rfl

/-- What compiling gives for a hole behind any number of quoted attributes, whatever has been compiled before.
As long as the tag seems open in front of the hole, the hole is found on the element, and the element has the
attributes with the values that are read when their tags that close themselves have been written out; these
are the values as they were written if no slash comes in front of a bracket. If the tag does not seem open,
the marker is lost. Without closing brackets in the values the tag seems open, and the element is the one
that is read without the hole. -/
theorem compile_holeBehind {c : Catalogue} (hc : c.Sound) (hname : IsOrdinaryName name)
    (h : AreQuoted space attributes) (hhole : IsAttributeName hole)
    (hunmarked : ∀ i, Tag.spelling space hole ≠ marker i) (id : Nat) :
    Markup.parse space (String.ofList (tagFront name attributes ++ '>' :: endTag name))
        = [emptyElement space name attributes] ∧
      (SeemsOpen (tagFront name attributes) → ∃ attributes',
        expandSelfClosing (tagFront name attributes) = tagFront name attributes' ∧
        AreSpread attributes attributes' ∧
        ((∀ a ∈ attributes, ¬['/', '>'] <:+: a.2) → attributes' = attributes) ∧
        (c.compile space (holeBehind id name attributes hole)).1
          = .ok ⟨[emptyElement space name attributes'], [⟨.attr (String.ofList hole), [0]⟩]⟩) ∧
      (¬SeemsOpen (tagFront name attributes) →
        (c.compile space (holeBehind id name attributes hole)).1
          = .error (.markersLost (markHoles (holeBehind id name attributes hole).segments) 1 0)) ∧
      ((∀ a ∈ attributes, '>' ∉ a.2) →
        (c.compile space (holeBehind id name attributes hole)).1
          = .ok ⟨[emptyElement space name attributes], [⟨.attr (String.ofList hole), [0]⟩]⟩) := by
  have hopened := compile_of_seemsOpen hc hname h hhole id
  refine ⟨parse_emptyElement hname h, fun hopen => ?_,
    compile_of_not_seemsOpen hc hname h hhole hunmarked id, fun hvalues => ?_⟩
  · obtain ⟨attributes', hexpand, hspread, hcompile⟩ := hopened hopen
    exact ⟨attributes', hexpand, hspread, hspread.eq_self, hcompile⟩
  · obtain ⟨attributes', -, hspread, hcompile⟩ :=
      hopened (seemsOpen_tagFront hname.element h.named hvalues)
    have hplain : ∀ a ∈ attributes, ¬['/', '>'] <:+: a.2 := fun a ha hin =>
      hvalues a ha (hin.subset (by decide))
    rwa [hspread.eq_self hplain] at hcompile

theorem compile_holeBehind_of_brackets :
    (holeBehind 0 "a".toList [("x".toList, "<b=&amp;c".toList), ("y".toList, "/".toList)]
        "h".toList).segments = ["<a x=\"<b=&amp;c\" y=\"/\" h=", "></a>"] ∧
      (Catalogue.empty.compile .html (holeBehind 0 "a".toList
        [("x".toList, "<b=&amp;c".toList), ("y".toList, "/".toList)] "h".toList)).1
        = .ok ⟨[.element ⟨"a", .html, [("x", "<b=&c"), ("y", "/")]⟩ []], [⟨.attr "h", [0]⟩]⟩ ∧
      (holeBehind 0 "a".toList [("x".toList, ">".toList)] "h".toList).segments
        = ["<a x=\">\" h=", "></a>"] ∧
      (Catalogue.empty.compile .html (holeBehind 0 "a".toList [("x".toList, ">".toList)] "h".toList)).1
        = .error (.markersLost (markHoles ["<a x=\">\" h=", "></a>"]) 1 0) := by
  have hname : IsOrdinaryName "a".toList := ⟨by decide, by decide, by decide⟩
  have hhead : ∀ n ∈ ["x".toList, "y".toList, "h".toList],
      (Tag.spelling .html n).toList.head? ≠ some 'i' := by decide
  have hunmarked : ∀ n ∈ ["x".toList, "y".toList, "h".toList], ∀ i, Tag.spelling .html n ≠ marker i := by
    intro n hn i heq
    exact hhead n hn (by rw [heq, toList_marker]; rfl)
  have hnamed : ∀ n ∈ ["x".toList, "y".toList], Template.IsAttributeName n := by decide
  have hopen : AreQuoted .html [("x".toList, "<b=&amp;c".toList), ("y".toList, "/".toList)] :=
    ⟨fun n hn => (hnamed n hn).isTokenName,
      fun n hn => hunmarked n (List.mem_append_left ["h".toList] hn), by decide, by decide⟩
  have hshut : AreQuoted .html [("x".toList, ">".toList)] :=
    ⟨fun n hn => (hnamed n (List.mem_append_left ["y".toList] hn)).isTokenName,
      fun n hn => hunmarked n (List.mem_append_left ["y".toList, "h".toList] hn), by decide, by decide⟩
  have hhole : IsAttributeName "h".toList := by decide
  have hfound := compile_holeBehind Catalogue.sound_empty hname hopen hhole
    (hunmarked "h".toList (by decide)) 0
  have hlost := compile_holeBehind Catalogue.sound_empty hname hshut hhole
    (hunmarked "h".toList (by decide)) 0
  refine ⟨by decide, ?_, by decide, ?_⟩
  · have hdecode : decode "<b=&amp;c".toList = "<b=&c".toList :=
      Markup.Reference.decode_encode .quoted "<b=&c".toList
    have hplain : decode "/".toList = "/".toList := decode_of_notMem (by decide)
    rw [hfound.2.2.2 (by decide), emptyElement, spelledAll, List.map_cons, List.map_singleton, hdecode,
      hplain]
    rfl
  · exact hlost.2.2.1 (by decide)

end LiveMarkup.Template
