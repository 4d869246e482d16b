import LiveMarkup.Proofs.Document.Scanning
import LiveMarkup.Proofs.Markup.Rereading
/-!
# A pass takes a token

One pass of reading in place does to the document and to the stack of open nodes what taking in a token does to
the markup that has been read so far (`Scanner.pass_eq`).
-/

namespace LiveMarkup.Scanner

open Document (addTree)
open Markup (Builder Namespace Tag Token Tree)
open Markup.Reference (decode decodeBytes?_eq)
open Markup.Token (isTagNamePart)
open String (utf8Len)
open Text (IsAscii cutAt findChar? from? isLetter sameLetters upTo?)

/-- The fragment that reading begins with. -/
def root (d : Document) (space : Namespace) : Opened where
  document := (d.create .fragment "").2
  inner := (d.next, space)
  outer := []

/-- A scanner and a builder have come equally far. -/
structure Mirrors (d : Document) (space : Namespace) (b : Builder) (r : Scanner) : Prop where
  outer : b.outer = space
  document : r.document = b.laid (root d space)
  stack : r.stack = ((root d space).enterAll b.frames).nodes.reverse

variable {d : Document} {space : Namespace} {b : Builder} {r : Scanner} {input front body s rest name : List Char}
  {c : Char} {i : Nat}

theorem isFresh_root (d : Document) (space : Namespace) : (root d space).IsFresh where
  nested :=
    { has := fun x hx => List.mem_singleton.1 hx ▸ Document.has_create_next ..
      apart := List.nodup_singleton _
      chain := List.isChain_singleton _ }
  children := by
    show (d.create .fragment "").2.children d.next = []
    rw [Document.children_create, Document.children_of_not_has Document.not_has_next]

theorem mirrors_start (d : Document) (space : Namespace) : Mirrors d space (Builder.empty space) (start d space) :=
  ⟨rfl, (root d space).fill_nil.symm, rfl⟩

namespace Mirrors

theorem getLast? (h : Mirrors d space b r) :
    r.stack.getLast? = some ((root d space).enterAll b.frames).inner := by
  rw [h.stack, List.getLast?_reverse]
  rfl

/-- What is read next is content of the innermost open node. -/
theorem space_inner (h : Mirrors d space b r) : ((root d space).enterAll b.frames).inner.2 = b.space := by
  obtain ⟨outer, frames, content⟩ := b
  cases frames with
  | nil => exact h.outer.symm
  | cons frame frames => rfl

theorem nested (h : Mirrors d space b r) : Opened.Nested r.document r.stack.reverse := by
  rw [h.document, h.stack, List.reverse_reverse]
  exact ((isFresh_root d space).enterAll b.frames).nested.fill b.content

/-- A tree is added to the document where it is added to what has been read. -/
theorem add (h : Mirrors d space b r) (tree : Tree) (i : Nat) :
    Mirrors d space (b.add tree) { r with
      position := i
      document := addTree ((root d space).enterAll b.frames).inner.1 r.document tree } where
  outer := h.outer
  document := by rw [h.document, Builder.laid_add]
  stack := h.stack

/-- An element without content yet is added and left open. -/
theorem push (h : Mirrors d space b r) (tag : Tag) (i : Nat) :
    Mirrors d space (b.push tag) { r with
      position := i
      document := addTree ((root d space).enterAll b.frames).inner.1 r.document (.element tag [])
      stack := r.stack ++ [(r.document.next, tag.contentSpace)] } where
  outer := h.outer
  document := by
    rw [h.document, Builder.laid_push, Document.addTree, Document.addContent]
  stack := by
    rw [h.stack, h.document]
    exact List.reverse_cons.symm

end Mirrors

theorem appendText_eq (h : Mirrors d space b r) (s : List Char) :
    ∃ next, r.appendText s = some next ∧ Mirrors d space (b.addText s) next ∧ next.position = r.position := by
  rw [appendText]
  by_cases hs : s = []
  · subst hs
    exact ⟨r, rfl, h, rfl⟩
  · have hlaid := b.laid_addText (isFresh_root d space) hs
    have hframes : (b.addText s).frames = b.frames ∧ (b.addText s).outer = b.outer := by
      rw [Builder.addText]
      split_ifs
      · exact ⟨rfl, rfl⟩
      · split <;> exact ⟨rfl, rfl⟩
    have hstack : r.stack = ((root d space).enterAll (b.addText s).frames).nodes.reverse := by
      rw [hframes.1, h.stack]
    have houter := hframes.2.trans h.outer
    rw [← h.document] at hlaid
    rw [if_neg (by simpa using hs), h.getLast?]
    simp only [Option.bind_eq_bind, Option.bind_some, Option.pure_def]
    split
    · rename_i last hlast
      rw [hlast] at hlaid
      exact ⟨_, rfl, ⟨houter, hlaid.symm, hstack⟩, rfl⟩
    · rename_i hlast
      rw [hlast] at hlaid
      simp only [append, h.getLast?, Option.bind_eq_bind, Option.bind_some, Option.pure_def]
      refine ⟨_, rfl, ⟨houter, ?_, hstack⟩, rfl⟩
      rw [hlaid, addTree]

theorem comment_eq (h : Mirrors d space b r) (hfrom : from? r.position input = some (front ++ body))
    (mark : List Char) :
    ∃ next, r.comment input (utf8Len front) mark = some next ∧
      Mirrors d space (b.add (.comment (String.ofList (cutAt mark body).1))) next ∧
      from? next.position input = some (cutAt mark body).2 := by
  obtain ⟨k, hk, hbehind⟩ := upToMark?_eq (Text.from?_add _ hfrom) mark
  rw [Nat.add_assoc] at hbehind
  refine ⟨_, ?_, h.add (.comment (String.ofList (cutAt mark body).1)) _, hbehind⟩
  simp only [comment, hfrom, Text.from?_append, hk, append, h.getLast?, Option.bind_eq_bind, Option.bind_some,
    Option.pure_def]
  rw [addTree]

theorem text_eq (h : Mirrors d space b r) (hfrom : from? r.position input = some (c :: rest)) :
    ∃ next, r.text input = some next ∧
      Mirrors d space (b.addText (decode (c :: rest.takeWhile (· != '<')))) next ∧
      from? next.position input = some (rest.dropWhile (· != '<')) := by
  have hbehind : from? c.utf8Size (c :: rest) = some rest :=
    Text.from?_eq_some_iff.2 ⟨[c], rfl, (Nat.zero_add _).symm⟩
  have hstop : ((findChar? (· == '<') rest).map (· + c.utf8Size)).getD (utf8Len (c :: rest))
      = utf8Len (c :: rest.takeWhile (· != '<')) := by
    have hget := Text.findChar?_getD (· == '<') rest
    rw [String.utf8Len_cons, String.utf8Len_cons]
    cases hfind : findChar? (· == '<') rest with
    | none =>
      rw [hfind] at hget
      exact congrArg (· + c.utf8Size) hget
    | some k =>
      rw [hfind] at hget
      exact congrArg (· + c.utf8Size) hget
  have hsplit : c :: rest = c :: rest.takeWhile (· != '<') ++ rest.dropWhile (· != '<') := by
    rw [List.cons_append, List.takeWhile_append_dropWhile]
  have hcut : upTo? (utf8Len (c :: rest.takeWhile (· != '<'))) (c :: rest)
      = some (c :: rest.takeWhile (· != '<')) := by
    conv_lhs => rw [hsplit]
    exact Text.upTo?_append ..
  have hmoved : Mirrors d space b { r with position := r.position + utf8Len (c :: rest.takeWhile (· != '<')) } :=
    ⟨h.outer, h.document, h.stack⟩
  obtain ⟨next, hnext, hmirrors, hposition⟩ := appendText_eq hmoved (decode (c :: rest.takeWhile (· != '<')))
  refine ⟨next, ?_, hmirrors, ?_⟩
  · simp only [text, hfrom, List.head?_cons, Option.map_some, Option.getD_some, hbehind, hstop, hcut, decodeBytes?_eq,
      hnext, Option.bind_eq_bind, Option.bind_some]
  · rw [hposition]
    exact Text.from?_add _ (hsplit ▸ hfrom)

/-! ### End tags -/

/-- Whether an end tag of some name can close a node. -/
def closes (name : List Char) : NodeKind → Bool
  | .element other _ => sameLetters other.toList name
  | _ => false

theorem closes_kind (d : Document) (n : NodeId) (name : List Char) :
    (d.isElement n && sameLetters (d.name n).toList name) = closes name (d.kind n) := by
  rw [Document.isElement, Document.name]
  cases d.kind n <;> rfl

/-- What the open nodes are, from the inside out. -/
theorem Mirrors.kinds (h : Mirrors d space b r) :
    r.stack.reverse.map (fun x => r.document.kind x.1)
      = b.frames.map (fun frame => NodeKind.element frame.tag.name frame.tag.space) ++ [.fragment] := by
  have hfresh := (isFresh_root d space).enterAll b.frames
  have hkinds := Opened.kinds_enterAll (isFresh_root d space) b.frames
  have hroot : (root d space).nodes.map (fun x => (root d space).document.kind x.1) = [.fragment] := by
    show [(d.create .fragment "").2.kind d.next] = _
    rw [Document.kind_create_next]
  rw [hroot] at hkinds
  have hfill : ((root d space).enterAll b.frames).document.Evolves (b.laid (root d space)) [] [] :=
    Document.evolves_trees.2 b.content.reverse _ _
  rw [← hkinds, h.document, h.stack, List.reverse_reverse]
  exact List.map_congr_left fun x hx => hfill.kind x.1 (hfresh.nested.has x hx)

/-- The innermost open element of a name is the one in the innermost frame of the name. -/
theorem lastIndex?_stack (h : Mirrors d space b r) (name : List Char) :
    lastIndex? (fun node => r.document.isElement node.1 && sameLetters (r.document.name node.1).toList name) r.stack
      = (b.frames.findIdx? fun frame => sameLetters frame.tag.name.toList name).map (b.frames.length - ·) := by
  have hlength : r.stack.length = b.frames.length + 1 := by
    rw [h.stack, List.length_reverse, Opened.length_nodes_enterAll]
    rfl
  have hfind := congrArg (List.findIdx? (closes name)) h.kinds
  rw [List.findIdx?_map, List.findIdx?_append, List.findIdx?_map] at hfind
  have hnone : [NodeKind.fragment].findIdx? (closes name) = none := rfl
  rw [hnone, Option.map_none, Option.or_none] at hfind
  simp only [lastIndex?, closes_kind, hlength]
  show (r.stack.reverse.findIdx? (closes name ∘ fun x => r.document.kind x.1)).map _ = _
  rw [hfind]
  rfl

/-- Closing some elements, but not the fragment, leaves those further out. -/
theorem Mirrors.close (h : Mirrors d space b r) (name : List Char) (i : Nat) :
    Mirrors d space (b.close name) { r with
      position := i
      stack := (((b.frames.findIdx? fun frame => sameLetters frame.tag.name.toList name).map
        (b.frames.length - ·)).map fun i => r.stack.take (max i 1)).getD r.stack } := by
  rw [Builder.close]
  cases hfind : b.frames.findIdx? fun frame => sameLetters frame.tag.name.toList name with
  | none => exact ⟨h.outer, h.document, h.stack⟩
  | some k =>
    have hk : k < b.frames.length := (List.findIdx?_eq_some_iff_getElem.1 hfind).1
    have hmax : max (b.frames.length - k) 1 = b.frames.length - k := Nat.max_eq_left (by omega)
    refine ⟨(Builder.outer_popMany _ b).trans h.outer, h.document.trans (Builder.popMany_laid _ _ b).symm, ?_⟩
    simp only [Option.map_some, Option.getD_some, hmax]
    rw [Builder.frames_popMany, Opened.nodes_enterAll_drop _ hk, List.reverse_drop, ← h.stack,
      Opened.length_nodes_enterAll]
    exact congrArg (r.stack.take ·) (by show _ = b.frames.length + 1 - (k + 1); omega)

theorem endTag_eq (h : Mirrors d space b r) (hfrom : from? r.position input = some ('<' :: '/' :: rest)) :
    ∃ next, r.endTag input = some next ∧
      Mirrors d space (b.close (rest.takeWhile isTagNamePart)) next ∧
      from? next.position input = some (cutAt ['>'] (rest.dropWhile isTagNamePart)).2 := by
  obtain ⟨j, hj, hbehind⟩ := tagName_eq (Text.from?_add ['<', '/'] hfrom)
  have hname : tagName input (r.position + 2) = some (rest.takeWhile isTagNamePart, j) := hj
  rw [endTag]
  simp only [hname, hbehind, lastIndex?_stack h, Option.bind_eq_bind, Option.bind_some, Option.pure_def]
  refine ⟨_, rfl, h.close _ _, ?_⟩
  rcases Text.findChar?_eq_cases '>' (rest.dropWhile isTagNamePart) with ⟨front, back, heq, hfind, hcut⟩ | ⟨hfind, hcut⟩
  · have hsplit : rest.dropWhile isTagNamePart = front ++ ['>'] ++ back := by rw [heq]; simp
    have hstop : j + utf8Len front + 1 = j + utf8Len (front ++ ['>']) := by
      rw [String.utf8Len_append, Nat.add_assoc]
      rfl
    rw [hfind, hcut, Option.map_some, Option.getD_some, hstop]
    exact Text.from?_add _ (hsplit ▸ hbehind)
  · rw [hfind, hcut]
    exact Text.from?_utf8Len input

/-! ### Start tags -/

section StartTag

variable {tag : Tag} {n : NodeId}

theorem lookup_rawTextNames (tag : Tag) :
    (if tag.space = .html then Markup.rawTextNames.lookup tag.name else none) = tag.rawText? := by
  rw [Tag.rawText?]
  cases tag.space <;> rfl

theorem isAscii_of_rawText? {kind : Markup.RawText} (h : tag.rawText? = some kind) : IsAscii tag.name.toList := by
  have hmem := Tag.name_mem_of_rawText? h
  generalize tag.name = name at hmem
  revert name
  decide

theorem plainText?_eq (kind : Markup.RawText) (s : List Char) :
    plainText? kind s = some (if kind = .decoded then decode s else s) := by
  cases kind with
  | verbatim => rfl
  | decoded => exact decodeBytes?_eq s

/-- The content of an element that is not read as markup is taken in as soon as the element is open. -/
theorem rawText_eq
    (h : Mirrors d space (b.push tag) { r with stack := r.stack ++ [(n, tag.contentSpace)] })
    (hfrom : from? r.position input = some s) :
    ∃ next, rawText input tag.name tag.space n r = some next ∧
      Mirrors d space ((b.push tag).takeRawText tag s).1
        { next with stack := next.stack ++ [(n, tag.contentSpace)] } ∧
      from? next.position input = some ((b.push tag).takeRawText tag s).2 := by
  have hinner : ((root d space).enterAll (b.push tag).frames).inner = (n, tag.contentSpace) :=
    Option.some.inj (h.getLast?.symm.trans List.getLast?_concat)
  rw [rawText, lookup_rawTextNames, Builder.takeRawText]
  cases hraw : tag.rawText? with
  | none => exact ⟨r, rfl, h, hfrom⟩
  | some kind =>
    have happend := Token.append_rawText tag.name.toList s
    obtain ⟨found, hfound, hget⟩ := Token.findEndTag?_eq (isAscii_of_rawText? hraw) s
    have hcut : upTo? (utf8Len (Token.rawText tag.name.toList s).1) s = some (Token.rawText tag.name.toList s).1 := by
      have := Text.upTo?_append (Token.rawText tag.name.toList s).1 (Token.rawText tag.name.toList s).2
      rwa [happend] at this
    have hbehind := Text.from?_add _ (happend.symm ▸ hfrom)
    simp only [hfrom, hfound, hget, hcut, plainText?_eq, Option.bind_eq_bind, Option.bind_some, Option.pure_def]
    have hmoved : Mirrors d space (b.push tag) { r with
        position := r.position + utf8Len (Token.rawText tag.name.toList s).1
        stack := r.stack ++ [(n, tag.contentSpace)] } := ⟨h.outer, h.document, h.stack⟩
    by_cases hdata : (Token.rawText tag.name.toList s).1 = []
    · have hnone : (b.push tag).addText (if kind = .decoded then decode [] else []) = b.push tag := by
        rw [decode, ite_self]
        rfl
      rw [hdata] at hmoved hbehind ⊢
      rw [hnone]
      exact ⟨_, rfl, hmoved, hbehind⟩
    · have hplain : (if kind = .decoded then decode (Token.rawText tag.name.toList s).1
          else (Token.rawText tag.name.toList s).1) ≠ [] := by
        split_ifs
        · exact Markup.Reference.decode_ne_nil hdata
        · exact hdata
      rw [if_neg (by simpa using hdata), Builder.addText_eq_add (Builder.endsInText_push b tag) hplain]
      refine ⟨_, rfl, ?_, hbehind⟩
      have hadd := hmoved.add (.text (String.ofList (if kind = .decoded then
        decode (Token.rawText tag.name.toList s).1 else (Token.rawText tag.name.toList s).1)))
        (r.position + utf8Len (Token.rawText tag.name.toList s).1)
      rw [hinner, addTree] at hadd
      exact hadd

/-- A new element is added whole or is left open, with its content if that is not read as markup. -/
theorem enter_eq (h : Mirrors d space b r) (hfrom : from? i input = some s) (tag : Tag) (closed : Bool) :
    ∃ next, enter input tag.name tag.space r.document.next closed
        { r with document := (r.document.createElement tag).2, position := i } = some next ∧
      Mirrors d space ((b.start tag closed).takeRawText tag s).1 next ∧
      from? next.position input = some ((b.start tag closed).takeRawText tag s).2 := by
  have hlinked : addTree ((root d space).enterAll b.frames).inner.1 r.document (.element tag [])
      = (r.document.createElement tag).2.link ((root d space).enterAll b.frames).inner.1 r.document.next := by
    rw [addTree, Document.addContent]
    rfl
  let linked : Scanner := { r with
    document := (r.document.createElement tag).2.link ((root d space).enterAll b.frames).inner.1 r.document.next
    position := i }
  have hadded := h.add (.element tag []) i
  have hpushed := h.push tag i
  rw [hlinked] at hadded hpushed
  have hwhole (hraw : tag.rawText? = none) : (b.add (.element tag [])).takeRawText tag s = (b.add (.element tag []), s) :=
    Markup.takeRawText_of_none hraw _ s
  rw [enter, Builder.start]
  simp only [append, h.getLast?, Option.bind_eq_bind, Option.bind_some, Option.pure_def]
  by_cases hvoid : tag.space = .html ∧ tag.name ∈ Markup.voidNames
  · have hstart : (tag.isVoid || (tag.space == .svg && closed)) = true := by
      simp [Tag.isVoid, hvoid.1, hvoid.2]
    rw [if_pos hvoid, if_pos hstart, hwhole (Tag.rawText?_of_isVoid (by simp [Tag.isVoid, hvoid.1, hvoid.2]))]
    exact ⟨_, rfl, hadded, hfrom⟩
  rw [if_neg hvoid]
  by_cases hclosed : tag.space = .svg ∧ closed = true
  · have hstart : (tag.isVoid || (tag.space == .svg && closed)) = true := by
      simp [hclosed.1, hclosed.2]
    rw [if_pos hclosed, if_pos hstart, hwhole (by rw [Tag.rawText?, hclosed.1])]
    exact ⟨_, rfl, hadded, hfrom⟩
  · have hstart : ¬(tag.isVoid || (tag.space == .svg && closed)) = true := by
      simp only [Tag.isVoid, Bool.or_eq_true, Bool.and_eq_true, beq_iff_eq, List.contains_iff_mem]
      exact fun hor => hor.elim hvoid hclosed
    obtain ⟨next, hnext, hmirrors, hposition⟩ := rawText_eq (r := linked) hpushed hfrom
    rw [if_neg hclosed, if_neg hstart, hnext]
    exact ⟨_, rfl, hmirrors, hposition⟩

theorem startTag_eq (h : Mirrors d space b r) (hfrom : from? r.position input = some ('<' :: rest)) :
    ∃ next, r.startTag input = some next ∧
      Mirrors d space (b.accept (Token.startTagFrom rest).1 (Token.startTagFrom rest).2).1 next ∧
      from? next.position input = some (b.accept (Token.startTagFrom rest).1 (Token.startTagFrom rest).2).2 := by
  obtain ⟨j, hj, hbehind⟩ := tagName_eq (Text.from?_add ['<'] hfrom)
  have hname : tagName input (r.position + 1) = some (rest.takeWhile isTagNamePart, j) := hj
  rw [Token.startTagFrom, Builder.accept]
  generalize rest.takeWhile isTagNamePart = name at hname
  generalize rest.dropWhile isTagNamePart = behind at hbehind
  let made : Scanner := { r with
    document := (r.document.create (.element (Tag.spelling (Tag.spaceOf b.space name) name)
      (Tag.spaceOf b.space name)) "").2
    position := j }
  obtain ⟨k, hk, htail⟩ := attributes_eq (show from? made.position input = some behind from hbehind)
    r.document.next (Tag.spaceOf b.space name)
  obtain ⟨next, hnext, hmirrors, hposition⟩ := enter_eq h htail
    (Tag.ofStart b.space name (Token.tagTail behind).attributes) (Token.tagTail behind).closed
  refine ⟨next, ?_, hmirrors, hposition⟩
  rw [← foldl_give_create] at hnext
  rw [startTag]
  simp only [hname, h.getLast?, h.space_inner, Document.create_fst, Option.bind_eq_bind, Option.bind_some]
  exact (congrArg (Option.bind · _) hk).trans hnext

end StartTag

/-! ### One pass -/

theorem beginsTag_append (mark rest : List Char) :
    beginsTag mark (mark ++ rest) = some (rest.head?.any isLetter) := by
  rw [beginsTag, if_pos (List.isPrefixOf_iff_prefix.2 (List.prefix_append mark rest)), Text.from?_append]
  rfl

/-- What begins with a bracket and nothing that goes with it is a start tag or text. -/
theorem pass_ordinary (hfrom : from? r.position input = some ('<' :: rest)) (hmark : ∀ t, rest ≠ '!' :: t)
    (hquestion : ∀ t, rest ≠ '?' :: t) (hslash : ∀ t, rest ≠ '/' :: t) :
    pass input r = if rest.head?.any isLetter then r.startTag input else r.text input := by
  have hprefix (c : Char) (hc : ∀ t, rest ≠ c :: t) (front : List Char) :
      ('<' :: c :: front).isPrefixOf ('<' :: rest) = false := by
    cases rest with
    | nil => rfl
    | cons e t => simp [List.isPrefixOf, show c ≠ e from fun he => hc t (he ▸ rfl)]
  have hopening : beginsTag ['<'] ('<' :: rest) = some (rest.head?.any isLetter) := beginsTag_append ['<'] rest
  have hclosing : beginsTag ['<', '/'] ('<' :: rest) = some false := by
    rw [beginsTag, hprefix _ hslash]
    rfl
  rw [pass, hfrom]
  simp only [hopening, hclosing, hprefix _ hmark, hprefix _ hquestion, hprefix _ hslash, Option.bind_eq_bind,
    Option.bind_some, Bool.false_eq_true, if_false, or_self]

/-- What begins with a bracket is taken in as the token that begins so. -/
theorem pass_bracket (h : Mirrors d space b r) (hfrom : from? r.position input = some ('<' :: rest)) :
    ∃ next, pass input r = some next ∧
      Mirrors d space (b.accept (Token.afterBracket rest).1 (Token.afterBracket rest).2).1 next ∧
      from? next.position input = some (b.accept (Token.afterBracket rest).1 (Token.afterBracket rest).2).2 := by
  fun_cases Token.afterBracket rest with
  | case1 t =>
    have hpass : pass input r = r.comment input 4 ['-', '-', '>'] := by
      rw [pass, hfrom]
      rfl
    rw [hpass]
    exact comment_eq h (show from? r.position input = some (['<', '!', '-', '-'] ++ t) from hfrom) _
  | case2 t hno =>
    have hpass : pass input r = r.comment input 2 ['>'] := by
      have hdashes : ['<', '!', '-', '-'].isPrefixOf ('<' :: '!' :: t) = false := by
        rw [Bool.eq_false_iff]
        intro hprefix
        obtain ⟨u, hu⟩ := List.isPrefixOf_iff_prefix.1 hprefix
        cases hu
        exact hno u rfl
      rw [pass, hfrom]
      simp only [hdashes, Option.bind_eq_bind, Option.bind_some]
      rfl
    rw [hpass]
    exact comment_eq h (show from? r.position input = some (['<', '!'] ++ t) from hfrom) _
  | case3 t =>
    have hpass : pass input r = r.comment input 2 ['>'] := by
      rw [pass, hfrom]
      rfl
    rw [hpass]
    exact comment_eq h (show from? r.position input = some (['<', '?'] ++ t) from hfrom) _
  | case4 t hletter =>
    have hpass : pass input r = r.endTag input := by
      have hclosing : beginsTag ['<', '/'] ('<' :: '/' :: t) = some true :=
        (beginsTag_append ['<', '/'] t).trans (congrArg some hletter)
      rw [pass, hfrom]
      simp only [Option.bind_eq_bind, Option.bind_some, hclosing]
      rfl
    rw [hpass]
    exact endTag_eq h hfrom
  | case5 t hletter =>
    have hpass : pass input r = r.comment input 2 ['>'] := by
      have hclosing : beginsTag ['<', '/'] ('<' :: '/' :: t) = some false :=
        (beginsTag_append ['<', '/'] t).trans (congrArg some (Bool.eq_false_iff.2 hletter))
      rw [pass, hfrom]
      simp only [Option.bind_eq_bind, Option.bind_some, hclosing]
      rfl
    rw [hpass]
    exact comment_eq h (show from? r.position input = some (['<', '/'] ++ t) from hfrom) _
  | case6 _ _ hmark hquestion hslash hletter =>
    rw [pass_ordinary hfrom hmark hquestion hslash, if_pos hletter]
    exact startTag_eq h hfrom
  | case7 _ _ hmark hquestion hslash hletter =>
    rw [pass_ordinary hfrom hmark hquestion hslash, if_neg hletter]
    exact text_eq h hfrom

/-- A pass takes in the token that comes next, and with a start tag also the raw text behind it. -/
theorem pass_eq (h : Mirrors d space b r) (hfrom : from? r.position input = some (c :: rest)) :
    ∃ next, pass input r = some next ∧
      Mirrors d space (b.accept (Token.next c rest).1 (Token.next c rest).2).1 next ∧
      from? next.position input = some (b.accept (Token.next c rest).1 (Token.next c rest).2).2 := by
  rw [Token.next]
  split_ifs with hc
  · subst hc
    exact pass_bracket h hfrom
  · have hprefix (front : List Char) : ('<' :: front).isPrefixOf (c :: rest) = false :=
      Text.isPrefixOf_cons_of_ne hc
    have hpass : pass input r = r.text input := by
      rw [pass, hfrom]
      simp only [beginsTag, hprefix, Option.bind_eq_bind, Option.bind_some, Option.pure_def, Bool.false_eq_true,
        if_false, or_self]
    rw [hpass]
    exact text_eq h hfrom

end LiveMarkup.Scanner
