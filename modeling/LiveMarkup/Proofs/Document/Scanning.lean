import LiveMarkup.Proofs.Document.Scanner
import LiveMarkup.Proofs.Document.Unfinished
import LiveMarkup.Proofs.Markup.Tokens
/-!
# The parts of a token, read in place

Where reading has come to some rest of the text, the parts of a tag that are read at its position are those that
the rest begins with, and what follows them follows the new position. A pass through the attributes of a start
tag either leaves them or gives some and has less to read (`attributePass_eq`). All the passes give the element
the attributes of its tag, the first one of each name (`attributes_eq`, `foldl_give_create`).
-/

namespace LiveMarkup.Scanner

open Markup (Namespace Tag Token)
open Markup.Reference (decodeBytes?_eq)
open Markup.Token (isAttributeNamePart isBareValuePart isTagNamePart)
open String (utf8Len)
open Text (cutAt findChar? findMark? from? isBlank isLetter trimStart upTo?)

variable {input s rest : List Char} {i : Nat} {r : Scanner} {c : Char} {n : NodeId} {space : Namespace}

/-! ### Parts of tags -/

theorem tagName_eq (h : from? i input = some s) :
    ∃ j, tagName input i = some (s.takeWhile isTagNamePart, j) ∧
      from? j input = some (s.dropWhile isTagNamePart) := by
  refine ⟨_, ?_, Text.from?_takeWhile h isTagNamePart⟩
  simp [tagName, h, Text.findChar?_not_getD, Text.upTo?_takeWhile]

theorem skipBlanks_eq (h : from? i input = some s) :
    ∃ j, skipBlanks input i = some j ∧ from? j input = some (trimStart s) := by
  refine ⟨_, ?_, Text.from?_takeWhile h isBlank⟩
  have hlength : utf8Len s = utf8Len (s.takeWhile isBlank) + utf8Len (trimStart s) := by
    rw [← String.utf8Len_append, trimStart, List.takeWhile_append_dropWhile]
  simp [skipBlanks, h, hlength]

theorem upToMark?_eq (h : from? i input = some s) (mark : List Char) :
    ∃ k, upToMark? mark s = some ((cutAt mark s).1, k) ∧ from? (i + k) input = some (cutAt mark s).2 := by
  rw [cutAt]
  cases hcut : Text.cutAt? mark s with
  | none =>
    refine ⟨utf8Len s, by rw [upToMark?, Text.findMark?_eq_none hcut]; rfl, ?_⟩
    rw [Text.from?_length h]
    exact Text.from?_utf8Len input
  | some cut =>
    obtain ⟨front, back⟩ := cut
    obtain rfl := Text.eq_append_of_cutAt? hcut
    refine ⟨utf8Len (front ++ mark), ?_, Text.from?_add _ h⟩
    rw [upToMark?, Text.findMark?_eq_some hcut]
    dsimp only
    rw [List.append_assoc, Text.upTo?_append, String.utf8Len_append]
    rfl

/-- A value without quotes ends at a blank or at the end of the tag. -/
theorem valueAfterEquals_bare (h : from? i input = some s)
    (hquote : (s.head?.filter fun c => c = '"' ∨ c = '\x27') = none) :
    valueAfterEquals input i = some (Markup.Reference.decode (s.takeWhile isBareValuePart),
      i + utf8Len (s.takeWhile isBareValuePart)) := by
  simp only [valueAfterEquals, h, hquote, Text.findChar?_not_getD, Text.upTo?_takeWhile, decodeBytes?_eq,
    Option.bind_eq_bind, Option.bind_some, Option.pure_def]

theorem valueAfterEquals_eq (h : from? i input = some s) :
    ∃ j, valueAfterEquals input i = some ((Token.valueAfterEquals s).1, j) ∧
      from? j input = some (Token.valueAfterEquals s).2 := by
  cases s with
  | nil =>
    refine ⟨i, ?_, h⟩
    rw [valueAfterEquals_bare h rfl, Token.valueAfterEquals, List.takeWhile_nil, Markup.Reference.decode]
    rfl
  | cons c rest =>
    rw [Token.valueAfterEquals]
    split
    · rename_i hquote
      have hc : c.utf8Size = 1 := by rcases hquote with rfl | rfl <;> rfl
      have hbody : from? 1 (c :: rest) = some rest :=
        Text.from?_eq_some_iff.2 ⟨[c], rfl, (show utf8Len [c] = 1 by simp [hc]).symm⟩
      have hhead : ((c :: rest).head?.filter fun c => c = '"' ∨ c = '\x27') = some c := by simp [hquote]
      rw [valueAfterEquals]
      simp only [h, hhead, hbody, Option.bind_eq_bind, Option.bind_some, Option.pure_def]
      rcases Text.findChar?_eq_cases c rest with ⟨front, back, rfl, hfind, hcut⟩ | ⟨hfind, hcut⟩
      · have hlength : utf8Len (front ++ c :: back) = utf8Len front + (utf8Len back + 1) := by
          rw [String.utf8Len_append, String.utf8Len_cons, hc]
        have hstop : utf8Len (c :: front ++ [c]) = 1 + utf8Len front + 1 := by
          rw [String.utf8Len_append, String.utf8Len_cons, String.utf8Len_cons, hc, String.utf8Len_nil]
          omega
        refine ⟨i + (1 + utf8Len front + 1), ?_, ?_⟩
        · simp [hfind, hcut, hlength, decodeBytes?_eq]
        · rw [hcut, ← hstop]
          exact Text.from?_add _ (by simpa using h)
      · have hstop : utf8Len (c :: rest) = 1 + utf8Len rest := by
          rw [String.utf8Len_cons, hc, Nat.add_comm]
        refine ⟨i + (1 + utf8Len rest), ?_, ?_⟩
        · simp [hfind, hcut, decodeBytes?_eq]
        · rw [hcut, ← hstop]
          exact Text.from?_add _ (by simpa using h)
    · rename_i hquote
      exact ⟨_, valueAfterEquals_bare h (by simpa using hquote), Text.from?_takeWhile h isBareValuePart⟩

theorem attributeValue_eq (h : from? i input = some s) :
    ∃ j, attributeValue input i = some ((Token.attributeValue s).1, j) ∧
      from? j input = some (Token.attributeValue s).2 := by
  obtain ⟨j, hj, hfrom⟩ := skipBlanks_eq h
  rw [Token.attributeValue, attributeValue]
  simp only [hj, hfrom, Option.bind_eq_bind, Option.bind_some, Option.pure_def]
  cases htrim : trimStart s with
  | nil =>
    rw [htrim] at hfrom
    exact ⟨j, rfl, hfrom⟩
  | cons c rest =>
    rw [htrim] at hfrom
    by_cases hequals : c = '='
    · subst hequals
      obtain ⟨k, hk, hfrom'⟩ := skipBlanks_eq (Text.from?_add ['='] hfrom)
      obtain ⟨l, hl, hvalue⟩ := valueAfterEquals_eq hfrom'
      refine ⟨l, ?_, hvalue⟩
      have hskip : skipBlanks input (j + 1) = some k := hk
      have hmark : ['='].isPrefixOf ('=' :: rest) = true := rfl
      simp only [hmark, hskip, hl, if_true, Option.bind_some]
    · have hmark : ['='].isPrefixOf (c :: rest) = false := Text.isPrefixOf_cons_of_ne hequals
      refine ⟨j, ?_, ?_⟩
      · simp only [hmark, Bool.false_eq_true, if_false]
        split
        · rename_i heq
          exact absurd (List.cons.inj heq).1 hequals
        · rfl
      · split
        · rename_i heq
          exact absurd (List.cons.inj heq).1 hequals
        · exact hfrom

/-! ### Attributes -/

/-- Gives an element an attribute as it has been read. -/
def give (n : NodeId) (space : Namespace) (d : Document) (a : List Char × List Char) : Document :=
  giveFirst d n (Tag.spelling space a.1) (String.ofList a.2)

/-- What a pass through the attributes comes to in front of a text: the tag ends as the text says, or some
attributes have been given and the rest of the text has those that are left. -/
def Turn.Follows (input : List Char) (n : NodeId) (space : Namespace) (r : Scanner) (s : List Char) : Turn → Prop
  | .leave closed next => ∃ rest, next = { r with position := next.position } ∧
      from? next.position input = some rest ∧ Token.tagTail s = ⟨[], closed, rest⟩
  | .stay next => ∃ rest given,
      next = { r with position := next.position, document := given.foldl (give n space) r.document } ∧
      from? next.position input = some rest ∧ rest <:+ s ∧ rest.length < s.length ∧
      Token.tagTail s = { Token.tagTail rest with attributes := given ++ (Token.tagTail rest).attributes }

theorem attributeNameStop_eq (hc : isTagNamePart c = true) (rest : List Char) :
    attributeNameStop (c :: rest) = utf8Len (Token.attributeName c rest).1 := by
  rw [Token.attributeName, attributeNameStop]
  split_ifs with hequals
  · subst hequals
    rw [Text.findChar?_cons_of_pos (by decide)]
    rfl
  · have hpart : isAttributeNamePart c = true := by simp [isAttributeNamePart, hc, hequals]
    have hstop := Text.findChar?_not_getD isAttributeNamePart (c :: rest)
    rw [List.takeWhile_cons_of_pos hpart] at hstop
    cases hfind : findChar? (!isAttributeNamePart ·) (c :: rest) with
    | none =>
      rw [hfind] at hstop
      exact hstop
    | some stop =>
      rw [hfind, Option.getD_some] at hstop
      subst hstop
      have hpos : utf8Len (c :: rest.takeWhile isAttributeNamePart) ≠ 0 := by
        have := c.utf8Size_pos
        rw [String.utf8Len_cons]
        omega
      split
      · rename_i heq
        exact absurd (Option.some.inj heq) hpos
      · rename_i heq
        exact (Option.some.inj heq).symm
      · rename_i heq
        cases heq

theorem attributeName_append (c : Char) (rest : List Char) :
    (Token.attributeName c rest).1 ++ (Token.attributeName c rest).2 = c :: rest := by
  rw [Token.attributeName]
  split_ifs with hequals
  · rw [hequals]
    rfl
  · rw [List.cons_append, List.takeWhile_append_dropWhile]

theorem attributePass_eq (h : from? r.position input = some s) (n : NodeId) (space : Namespace) :
    ∃ turn, attributePass input n space r = some turn ∧ turn.Follows input n space r s := by
  obtain ⟨j, hj, hfrom⟩ := skipBlanks_eq h
  have hsuffix := Token.trimStart_suffix s
  have hhead : ∀ c ∈ (trimStart s).head?, isBlank c = false := fun c hc => Text.eq_false_of_mem_head?_dropWhile hc
  rw [attributePass]
  simp only [hj, hfrom, Option.bind_eq_bind, Option.bind_some, Option.pure_def]
  cases htrim : trimStart s with
  | nil =>
    rw [htrim] at hfrom
    exact ⟨_, rfl, [], rfl, hfrom, Token.tagTail_of_nil htrim⟩
  | cons c rest =>
    rw [htrim] at hfrom hsuffix hhead
    have hrest : rest <:+ s := (List.suffix_cons c rest).trans hsuffix
    have hshort : rest.length < s.length := hsuffix.length_le
    by_cases hslash : c = '/'
    · subst hslash
      by_cases hclose : ∃ t, '>' :: t = rest
      · obtain ⟨t, rfl⟩ := hclose
        exact ⟨_, rfl, t, rfl, Text.from?_add ['/', '>'] hfrom, Token.tagTail_of_closed htrim⟩
      · have hmark : ['/', '>'].isPrefixOf ('/' :: rest) = false := by
          cases rest with
          | nil => rfl
          | cons d t => simpa [List.isPrefixOf] using fun he : '>' = d => hclose ⟨t, he ▸ rfl⟩
        simp only [hmark]
        refine ⟨_, rfl, rest, [], rfl, Text.from?_add ['/'] hfrom, hrest, hshort, ?_⟩
        exact Token.tagTail_of_slash htrim fun t ht => hclose ⟨t, ht⟩
    · by_cases hclose : c = '>'
      · subst hclose
        exact ⟨_, rfl, rest, rfl, Text.from?_add ['>'] hfrom, Token.tagTail_of_bracket htrim⟩
      · have hpart : isTagNamePart c = true := by
          simp [isTagNamePart, hhead c rfl, hslash, hclose]
        have hname := attributeName_append c rest
        have hback := Token.attribute_suffix c rest
        obtain ⟨k, hk, hvalue⟩ := attributeValue_eq (Text.from?_add _ (hname ▸ hfrom))
        have hcut : upTo? (utf8Len (Token.attributeName c rest).1) (c :: rest)
            = some (Token.attributeName c rest).1 := by
          have := Text.upTo?_append (Token.attributeName c rest).1 (Token.attributeName c rest).2
          rwa [hname] at this
        simp only [List.isEmpty_cons, Text.isPrefixOf_cons_of_ne hslash, Text.isPrefixOf_cons_of_ne hclose,
          attributeNameStop_eq hpart, hcut, hk,
          Bool.false_eq_true, if_false, Option.bind_some]
        refine ⟨_, rfl, _, [((Token.attributeName c rest).1, (Token.attributeValue (Token.attributeName c rest).2).1)],
          rfl, hvalue, hback.trans hrest, hback.length_le.trans_lt hshort,
          Token.tagTail_of_trimStart htrim hslash hclose⟩

/-- The attributes of a start tag are those that the text in front of them has. -/
theorem attributes_eq (h : from? r.position input = some s) (n : NodeId) (space : Namespace) :
    ∃ j, attributes input n space r = some ((Token.tagTail s).closed,
        { r with position := j, document := (Token.tagTail s).attributes.foldl (give n space) r.document }) ∧
      from? j input = some (Token.tagTail s).rest := by
  induction hlength : s.length using Nat.strong_induction_on generalizing s r with
  | _ k ih =>
    subst hlength
    obtain ⟨turn, hturn, hfollows⟩ := attributePass_eq h n space
    rw [attributes, hturn]
    cases turn with
    | leave closed next =>
      obtain ⟨rest, hnext, hfrom, htail⟩ := hfollows
      refine ⟨next.position, ?_, ?_⟩
      · rw [htail]
        exact congrArg (fun r => some (closed, r)) hnext
      · rw [htail]
        exact hfrom
    | stay next =>
      obtain ⟨rest, given, hnext, hfrom, hsuffix, hshort, htail⟩ := hfollows
      have hforward : r.position < next.position ∧ next.position ≤ utf8Len input := by
        obtain ⟨c, -, -, hforward, hbound⟩ := Text.from?_advance h hfrom hsuffix hshort
        have := c.utf8Size_pos
        exact ⟨by omega, hbound⟩
      obtain ⟨j, hj, hrest⟩ := ih rest.length hshort hfrom rfl
      refine ⟨j, ?_, ?_⟩
      · dsimp only
        rw [if_pos hforward, hj, htail, hnext]
        simp
      · rw [htail]
        exact hrest

/-! ### The attributes of the element -/

section Element

variable {d : Document} {name : String}

/-- A name as it is spelled in a namespace is a name as it is spelled on an element of it. -/
theorem spelled_spelling (h : d.kind n = .element name space) (s : List Char) :
    d.spelled n (Tag.spelling space s) = Tag.spelling space s := by
  rw [Document.spelled, h]
  cases space with
  | svg => rfl
  | html => simp [Tag.spelling, Text.lowerString]

theorem isSome_attributeOf? (h : d.kind n = .element name space) (s : List Char) :
    (d.attributeOf? n (Tag.spelling space s)).isSome
      = (d.attributePairs n).any (·.1 == Tag.spelling space s) := by
  rw [Document.attributeOf?, spelled_spelling h, Document.attributePairs, List.any_map, Bool.eq_iff_iff,
    List.find?_isSome, List.any_eq_true]
  rfl

theorem listed_giveAttribute (hlisted : ∀ a ∈ (d.node n).attributes, d.HasAttribute a) (hn : d.Has n)
    (name value : String) :
    ∀ a ∈ ((d.giveAttribute n name value).node n).attributes, (d.giveAttribute n name value).HasAttribute a := by
  have hsize : (d.giveAttribute n name value).attributes.size = d.attributes.size + 1 := Array.size_push _
  intro a ha
  rw [Document.node_giveAttribute, if_pos ⟨rfl, hn⟩] at ha
  rw [Document.HasAttribute, hsize]
  rcases List.mem_append.1 ha with hold | hnew
  · exact Nat.lt_succ_of_lt (hlisted a hold)
  · rw [List.mem_singleton.1 hnew]
    exact Nat.lt_succ_self _

/-- Giving each attribute whose name is new gives the first one of each name. -/
theorem foldl_give (hn : d.Has n) (hkind : d.kind n = .element name space)
    (hlisted : ∀ a ∈ (d.node n).attributes, d.HasAttribute a) (attributes : List (List Char × List Char)) :
    ∃ given : List (String × String),
      (attributes.map fun a => (Tag.spelling space a.1, String.ofList a.2)).foldl
          (fun kept a => if kept.any (·.1 == a.1) then kept else kept ++ [a]) (d.attributePairs n)
        = d.attributePairs n ++ given ∧
      attributes.foldl (give n space) d = given.foldl (fun d a => d.giveAttribute n a.1 a.2) d := by
  induction attributes generalizing d with
  | nil => exact ⟨[], (List.append_nil _).symm, rfl⟩
  | cons a rest ih =>
    rw [List.map_cons, List.foldl_cons, List.foldl_cons, give, giveFirst, isSome_attributeOf? hkind]
    dsimp only
    split
    · exact ih hn hkind hlisted
    · have hpairs := Document.pairs_giveAttribute hlisted hn (Tag.spelling space a.1) (String.ofList a.2)
      have hgives : d.Evolves (d.giveAttribute n (Tag.spelling space a.1) (String.ofList a.2)) [] [] :=
        Document.evolves_giveAttribute ..
      obtain ⟨given, hkept, hgiven⟩ := ih (hgives.grows.has hn) ((hgives.kind n hn).trans hkind)
        (listed_giveAttribute hlisted hn _ _)
      rw [hpairs] at hkept
      exact ⟨(Tag.spelling space a.1, String.ofList a.2) :: given, by rw [hkept, List.append_assoc]; rfl, hgiven⟩

/-- An element that is made and given its attributes one by one is the element of the tag. -/
theorem foldl_give_create (d : Document) (outer : Namespace) (s : List Char)
    (attributes : List (List Char × List Char)) :
    attributes.foldl (give d.next (Tag.spaceOf outer s))
        (d.create (.element (Tag.spelling (Tag.spaceOf outer s) s) (Tag.spaceOf outer s)) "").2
      = (d.createElement (Tag.ofStart outer s attributes)).2 := by
  have hnode := Document.node_create d (.element (Tag.spelling (Tag.spaceOf outer s) s) (Tag.spaceOf outer s)) "" d.next
  rw [if_pos rfl] at hnode
  obtain ⟨given, hkept, hgiven⟩ := foldl_give (Document.has_create_next ..) Document.kind_create_next
    (by rw [hnode]; exact fun a ha => by cases ha) attributes
  have hnone : Document.attributePairs (d.create (.element (Tag.spelling (Tag.spaceOf outer s) s)
      (Tag.spaceOf outer s)) "").2 d.next = [] := by
    rw [Document.attributePairs, hnode]
    rfl
  rw [hnone, List.nil_append] at hkept
  rw [hgiven, ← hkept]
  rfl

end Element

end LiveMarkup.Scanner
