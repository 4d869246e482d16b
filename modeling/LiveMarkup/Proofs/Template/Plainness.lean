import LiveMarkup.Proofs.Template.Clarity
import LiveMarkup.Proofs.Template.Surplus
/-!
# Templates that mark nothing themselves

What is read from clear text is clear: no attribute has the name of a marker that is not in the text, since
tokens end in front of a marker or behind its number, and the text of an element is put together from whole
pieces (`eachIsClear_parse`). So if nothing in the segments of a template can be taken for a marker and none
stands behind the last one, a hole that the template does not have is marked nowhere
(`IsPlain.not_isOvermarked`).
-/

namespace LiveMarkup

namespace Template

open Markup (Token)
open Text (isBlank)

variable {n : Nat} {s : List Char} {c : Char}

/-! ### Names and text -/

theorem isDigit_eq_false_of_attributeName (h : Token.isAttributeNamePart c = false) :
    c.isDigit = false := by
  have hcases : isBlank c = true ∨ c = '/' ∨ c = '>' ∨ c = '=' := by
    simp only [Token.isAttributeNamePart, Token.isTagNamePart] at h
    grind
  rcases hcases with hblank | rfl | rfl | rfl
  · exact (endsNumber_of_isBlank hblank).1
  all_goals decide

theorem isLower_eq_false_of_isDigit (h : c.isDigit = true) : c.isLower = false := by
  have hbound := (Char.isDigit_iff_toNat.1 h).2
  rw [← Bool.not_eq_true, Text.isLower_iff]
  simp at hbound
  omega

/-- What clear text begins with, up to something other than a digit, is not the marker of hole `n`, in
letters of any case. -/
theorem lower_ne_marker {name t : List Char} (h : IsClear n (name ++ t))
    (ht : ∀ d ∈ t.head?, d.isDigit = false) : Text.lower name ≠ (marker n).toList := by
  intro heq
  rw [toList_marker] at heq
  rcases name with _ | ⟨a, _ | ⟨b, _ | ⟨c, digits⟩⟩⟩
  · simp [Text.lower] at heq
  · simp [Text.lower] at heq
  · simp [Text.lower] at heq
  · -- the two letters may be capitals, but `µ` and the digits are their own small letters
    obtain ⟨-, -, hc, hdigits⟩ : a.toLower = 'i' ∧ b.toLower = 's' ∧ c.toLower = 'µ' ∧
        Text.lower digits = Nat.toDigits 10 n := by
      simpa [Text.lower] using heq
    have hsame : Text.lower digits = digits := by
      refine Text.lower_eq_self fun d hd => ?_
      have hmem : d.toLower ∈ Nat.toDigits 10 n := by
        rw [← hdigits]
        exact List.mem_map_of_mem hd
      have hdigit := isDigit_of_mem_toDigits hmem
      exact (Text.eq_of_toLower_eq rfl (isLower_eq_false_of_isDigit hdigit)).symm
    rw [← hsame, hdigits] at h
    exact not_isClear_number ht [a, b] (Text.eq_of_toLower_eq hc (by decide) ▸ h)

/-- No attribute that is read in clear text has the name of the marker of hole `n`, in letters of any case.
-/
theorem lower_attributeName_ne {rest : List Char} (h : IsClear n (c :: rest)) :
    Text.lower (Token.attributeName c rest).1 ≠ (marker n).toList := by
  rw [Token.attributeName]
  split
  · rw [toList_marker]
    intro heq
    cases heq
  · rw [← List.takeWhile_append_dropWhile (p := Token.isAttributeNamePart) (l := rest),
      ← List.cons_append] at h
    exact lower_ne_marker h fun d hd =>
      isDigit_eq_false_of_attributeName (Text.eq_false_of_mem_head?_dropWhile hd)

/-- Clear text is nowhere the marker comment of hole `n`. -/
theorem IsClear.trim_ne (h : IsClear n s) : Text.trim s ≠ markerComment n := by
  intro heq
  have hclear := h.trim
  rw [heq, markerComment, toList_marker] at hclear
  refine not_isClear_number (n := n) (t := ['-', '-', '>']) (fun c hc => ?_)
    ['<', '!', '-', '-', 'i', 's'] ?_
  · rw [List.head?_cons, Option.mem_some_iff] at hc
    rw [← hc]
    decide
  · simpa using hclear

end Template

namespace Markup

variable {n : Nat} {b : Builder} {tree : Tree}

/-- In a token no attribute has the name of the marker of hole `n`, in letters of any case, and text is clear.
-/
def Token.IsClear (n : Nat) : Token → Prop
  | startTag _ attributes _ => ∀ a ∈ attributes, Text.lower a.1 ≠ (marker n).toList
  | text data => Template.IsClear n data
  | _ => True

mutual

/-- In a tree no element has the marker of hole `n` as an attribute, and all text is clear. -/
def Tree.IsClear (n : Nat) : Tree → Prop
  | .element tag children => marker n ∉ tag.attributes.map Prod.fst ∧ EachIsClear n children
  | .text data => Template.IsClear n data.toList
  | .comment _ => True

/-- All trees of a list are clear. -/
def EachIsClear (n : Nat) : List Tree → Prop
  | [] => True
  | tree :: rest => tree.IsClear n ∧ EachIsClear n rest

end

theorem eachIsClear_iff {trees : List Tree} : EachIsClear n trees ↔ ∀ t ∈ trees, t.IsClear n := by
  induction trees with
  | nil => simp [EachIsClear]
  | cons t ts ih => rw [EachIsClear, ih, List.forall_mem_cons]

/-- The text of clear trees is put together to clear text. -/
theorem isClear_textContent :
    (∀ t : Tree, t.IsClear n → Template.IsClear n t.textContent.toList) ∧
      ∀ ts : List Tree, EachIsClear n ts → Template.IsClear n (textContentAll ts).toList := by
  refine Tree.induct ?_ ?_ ?_ ?_ ?_
  · intro tag children ih h
    exact ih h.2
  · intro data h
    exact h
  · intro data _
    trivial
  · intro _
    trivial
  · intro t ts iht ihts h
    rw [textContentAll, String.toList_append]
    exact (iht h.1).append (ihts h.2)

theorem Tree.IsClear.at? (h : tree.IsClear n) {path : List Nat} {t : Tree}
    (ht : tree.at? path = some t) : t.IsClear n := by
  induction path generalizing tree with
  | nil =>
    cases ht
    exact h
  | cons i path ih =>
    obtain ⟨child, hchild, ht⟩ := Option.bind_eq_some_iff.1 ht
    refine ih ?_ ht
    cases tree with
    | element tag children => exact eachIsClear_iff.1 h.2 _ (List.mem_of_getElem? hchild)
    | text | comment => cases hchild

theorem EachIsClear.follow {trees : List Tree} (h : EachIsClear n trees) {path : List Nat} {t : Tree}
    (ht : Tree.follow trees path = some t) : t.IsClear n := by
  cases path with
  | nil => cases ht
  | cons i path =>
    obtain ⟨first, hfirst, ht⟩ := Option.bind_eq_some_iff.1 ht
    exact (eachIsClear_iff.1 h _ (List.mem_of_getElem? hfirst)).at? ht

/-! ### Tokens of clear text -/

namespace Token

variable {c : Char} {rest : List Char}

theorem isClear_startTagFrom (h : Template.IsClear n rest) : (startTagFrom rest).1.IsClear n := by
  intro a ha
  obtain ⟨c, t, ht, hname⟩ := (tagTail_suffix _).2 a ha
  rw [hname]
  exact Template.lower_attributeName_ne (h.suffix (ht.trans (List.dropWhile_suffix _)))

theorem isClear_textFrom (h : Template.IsClear n (c :: rest)) : (textFrom c rest).1.IsClear n := by
  rw [← List.takeWhile_append_dropWhile (p := (· != '<')) (l := rest), ← List.cons_append] at h
  refine h.front fun d hd => ?_
  obtain rfl : d = '<' := by simpa using Text.eq_false_of_mem_head?_dropWhile hd
  decide

theorem isClear_afterBracket (h : Template.IsClear n ('<' :: rest)) :
    (afterBracket rest).1.IsClear n := by
  unfold afterBracket
  split
  · trivial
  · trivial
  · trivial
  · split <;> trivial
  · split
    · exact isClear_startTagFrom h.2.2
    · exact isClear_textFrom h

/-- The first token of clear text is clear. -/
theorem isClear_next (h : Template.IsClear n (c :: rest)) : (next c rest).1.IsClear n := by
  rw [next]
  split
  · rename_i hc
    exact isClear_afterBracket (hc ▸ h)
  · exact isClear_textFrom h

end Token

/-- A start tag without the marker of hole `n` stands for a tag without it. -/
theorem Tag.marker_notMem_ofStart {attributes : List (List Char × List Char)}
    (h : ∀ a ∈ attributes, Text.lower a.1 ≠ (marker n).toList) (outer : Namespace) (name : List Char) :
    marker n ∉ (ofStart outer name attributes).attributes.map Prod.fst := by
  intro hmem
  obtain ⟨a, ha, hname⟩ := List.mem_map.1 hmem
  obtain ⟨b, hb, rfl⟩ := List.mem_map.1 ((firstOfEachName_spec _).2 ha)
  have hspelled := congrArg String.toList hname
  rw [toList_spelling] at hspelled
  split at hspelled
  · exact h b hb hspelled
  · exact h b hb (by rw [hspelled, Template.lower_marker])

/-! ### Clear markup that has been read in part -/

/-- What has been read is clear, inside and in front of each open element, and none of these has the marker
of hole `n`. -/
structure Builder.IsClear (n : Nat) (b : Builder) : Prop where
  frames : ∀ f ∈ b.frames, marker n ∉ f.tag.attributes.map Prod.fst ∧ EachIsClear n f.before
  content : EachIsClear n b.content

namespace Builder.IsClear

variable {tag : Tag} {s : List Char}

theorem add (h : b.IsClear n) (htree : tree.IsClear n) : (b.add tree).IsClear n :=
  ⟨h.frames, htree, h.content⟩

theorem addText (h : b.IsClear n) (hs : Template.IsClear n s) : (b.addText s).IsClear n := by
  have htext : Tree.IsClear n (.text (String.ofList s)) := by
    rw [Tree.IsClear, String.toList_ofList]
    exact hs
  rw [Builder.addText]
  split
  · exact h
  · have hcontent := h.content
    split
    · rename_i data before heq
      rw [heq] at hcontent
      refine ⟨h.frames, ?_, hcontent.2⟩
      rw [Tree.IsClear, String.toList_append, String.toList_ofList]
      exact Template.IsClear.append hcontent.1 hs
    · exact ⟨h.frames, htext, hcontent⟩

theorem push (h : b.IsClear n) (htag : marker n ∉ tag.attributes.map Prod.fst) :
    (b.push tag).IsClear n :=
  ⟨List.forall_mem_cons.2 ⟨⟨htag, h.content⟩, h.frames⟩, trivial⟩

theorem pop (h : b.IsClear n) : b.pop.IsClear n := by
  obtain ⟨outer, frames, content⟩ := b
  cases frames with
  | nil => exact h
  | cons frame frames =>
    obtain ⟨⟨htag, hbefore⟩, hframes⟩ := List.forall_mem_cons.1 h.frames
    refine ⟨hframes, ⟨htag, eachIsClear_iff.2 fun t ht => ?_⟩, hbefore⟩
    exact eachIsClear_iff.1 h.content t (List.mem_reverse.1 ht)

theorem popMany (h : b.IsClear n) (k : Nat) : (popMany k b).IsClear n := by
  induction k generalizing b with
  | zero => exact h
  | succ k ih => exact ih h.pop

theorem close (h : b.IsClear n) (name : List Char) : (b.close name).IsClear n := by
  rw [Builder.close]
  split
  · exact h.popMany _
  · exact h

theorem start (h : b.IsClear n) (htag : marker n ∉ tag.attributes.map Prod.fst) (closed : Bool) :
    (b.start tag closed).IsClear n := by
  rw [Builder.start]
  split
  · exact h.add ⟨htag, trivial⟩
  · exact h.push htag

theorem takeRawText (h : b.IsClear n) (tag : Tag) (hs : Template.IsClear n s) :
    (b.takeRawText tag s).1.IsClear n ∧ Template.IsClear n (b.takeRawText tag s).2 := by
  rw [Builder.takeRawText]
  split
  · exact ⟨h, hs⟩
  · rename_i kind _
    have hsplit := Token.append_rawText tag.name.toList s
    rw [← hsplit] at hs
    have hfront : Template.IsClear n (Token.rawText tag.name.toList s).1 := by
      refine hs.front fun c hc => ?_
      rw [Token.head?_rawText _ _ c hc]
      decide
    refine ⟨h.addText ?_, hs.back⟩
    split
    · rw [Reference.decode_of_notMem hfront.notMem]
      exact hfront
    · exact hfront

/-- Taking in a clear token leaves what has been read and what is left clear. -/
theorem accept (h : b.IsClear n) {token : Token} (htoken : token.IsClear n)
    (hs : Template.IsClear n s) :
    (b.accept token s).1.IsClear n ∧ Template.IsClear n (b.accept token s).2 := by
  cases token with
  | startTag name attributes closed =>
    exact (h.start (Tag.marker_notMem_ofStart htoken _ name) closed).takeRawText _ hs
  | endTag name => exact ⟨h.close name, hs⟩
  | comment data => exact ⟨h.add trivial, hs⟩
  | text data =>
    refine ⟨h.addText ?_, hs⟩
    rw [Reference.decode_of_notMem (Template.IsClear.notMem htoken)]
    exact htoken

/-- Taking in clear text leaves what has been read clear. -/
theorem run (h : b.IsClear n) (hs : Template.IsClear n s) : (b.run s).IsClear n := by
  fun_induction Builder.run b s with
  | case1 => exact h
  | case2 b c rest token taken ih =>
    obtain ⟨hread, hleft⟩ :=
      h.accept (Token.isClear_next hs) (hs.suffix ((Token.next_suffix c rest).trans (List.suffix_cons c rest)))
    exact ih hread hleft

end Builder.IsClear

/-- Trees that are read from clear text are clear. -/
theorem eachIsClear_parse {s : String} (h : Template.IsClear n s.toList) (space : Namespace) :
    EachIsClear n (parse space s) := by
  have hempty : (Builder.empty space).IsClear n := ⟨fun f hf => absurd hf List.not_mem_nil, trivial⟩
  have hclosed := (hempty.run h).popMany ((Builder.empty space).run s.toList).frames.length
  exact eachIsClear_iff.2 fun t ht => eachIsClear_iff.1 hclosed.content t (List.mem_reverse.1 ht)

end Markup

namespace Template

/-- Nothing in the segments of a template can be taken for a marker, and there is none behind the last. -/
structure IsPlain (template : Template) : Prop where
  clear : ∀ segment ∈ template.segments, 'µ' ∉ segment.toList ∧ '&' ∉ segment.toList
  unmarked : EndsUnmarked [] (template.segments.map String.toList)

theorem IsPlain.isClear_markHoles {template : Template} (h : template.IsPlain) :
    IsClear template.gaps (markHoles template.segments).toList := by
  have hjoined : IsClear template.gaps (joined [] 0 (template.segments.map String.toList)) := by
    refine isClear_joined (List.forall_mem_map.2 h.clear) h.unmarked ?_
    rw [gaps, List.length_map]
    omega
  rw [markHoles, String.toList_ofList]
  exact hjoined.trim.expandSelfClosing

/-- A plain template does not get more holes than it should have. -/
theorem IsPlain.not_isOvermarked {template : Template} (h : template.IsPlain) (space : Markup.Namespace) :
    ¬template.IsOvermarked space := by
  rintro ⟨i, hole, t, hi, -, hfollow, hover⟩
  have ht := (Markup.eachIsClear_parse h.isClear_markHoles space).follow hfollow
  rw [← hi] at ht
  obtain ⟨kind, path⟩ := hole
  cases kind with
  | child | text => cases hover
  | attr name =>
    cases t with
    | text | comment => cases hover
    | element tag children =>
      rcases hover with hmarked | ⟨-, htext⟩
      · exact ht.1 hmarked
      · exact (Markup.isClear_textContent.2 children ht.2).trim_ne htext

end Template

end LiveMarkup
