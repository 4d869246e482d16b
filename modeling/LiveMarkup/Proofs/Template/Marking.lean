import LiveMarkup.Proofs.Template.Source
import LiveMarkup.Proofs.Text.Basic
/-!
# Marking finds out what is a start tag

The segments of a template are joined from the front, and for each of them the text so far tells whether
the hole behind it is inside a start tag. `Cursor` is a place in the template with the text in front of
it, cut into segments. In a well-formed template every place is inside or outside of a start tag for good:
what is written there up to the next bracket does not change it (`Cursor.IsInside`, `Cursor.IsOutside`).
So each hole is marked as what it is (`joined_cutAll`).
-/

namespace LiveMarkup.Template

open Text (isBlank isLetter isLetter_of_isLower trimStart)

/-! ### Text without brackets -/

section Bare

variable {s t : List Char} {c : Char} {i : Nat}

theorem isBare_nil : IsBare [] := by
  intro c h
  cases h

theorem isBare_cons : IsBare (c :: s) ↔ (c ≠ '<' ∧ c ≠ '>') ∧ IsBare s :=
  List.forall_mem_cons

theorem isBare_append : IsBare (s ++ t) ↔ IsBare s ∧ IsBare t :=
  List.forall_mem_append

theorem ne_of_isNamePart (h : isNamePart c = true) (d : Char)
    (hd : isNamePart d = false := by decide) : c ≠ d := by
  rintro rfl
  rw [h] at hd
  cases hd

theorem IsAttributeName.isBare (h : IsAttributeName s) : IsBare s :=
  fun _ hc => ⟨ne_of_isNamePart (h.parts _ hc) _, ne_of_isNamePart (h.parts _ hc) _⟩

theorem IsElementName.ne (h : IsElementName s) (hc : c ∈ s) (d : Char)
    (hd : (!d.isLower && !d.isDigit && d != '-') = true := by decide) : c ≠ d := by
  rintro rfl
  rcases h.parts c hc with hl | hl | hl <;> simp [hl] at hd

theorem IsElementName.isBare (h : IsElementName s) : IsBare s :=
  fun _ hc => ⟨h.ne hc _, h.ne hc _⟩

theorem IsElementName.exists_eq_cons (h : IsElementName s) :
    ∃ c rest, s = c :: rest ∧ isLetter c = true := by
  cases s with
  | nil => exact absurd h.head (by simp)
  | cons c rest => exact ⟨c, rest, rfl, isLetter_of_isLower (by simpa using h.head)⟩

theorem toList_marker (i : Nat) : (marker i).toList = 'i' :: 's' :: 'µ' :: Nat.toDigits 10 i := by
  rw [marker, String.toList_append, show toString i = i.repr from rfl, Nat.toList_repr]
  rfl

theorem isDigit_of_mem_marker (h : c ∈ (marker i).toList) :
    c = 'i' ∨ c = 's' ∨ c = 'µ' ∨ c.isDigit = true := by
  rw [toList_marker, List.mem_cons, List.mem_cons, List.mem_cons] at h
  exact h.imp_right fun h => h.imp_right fun h => h.imp_right fun h =>
    Nat.isDigit_of_mem_toDigits (by decide) (by decide) h

theorem isNamePart_of_isDigit (h : c.isDigit = true) : isNamePart c = true := by
  have hne : ∀ d : Char, d.isDigit = false → c ≠ d := by
    rintro d hd rfl
    rw [h] at hd
    cases hd
  simp [isNamePart, isHoleNamePart, Text.isBlank_of_isDigit h, hne]

theorem isAttributeName_marker (i : Nat) : IsAttributeName (marker i).toList := by
  refine ⟨by rw [toList_marker]; exact List.cons_ne_nil _ _, fun c hc => ?_⟩
  rcases isDigit_of_mem_marker hc with rfl | rfl | rfl | hdigit
  · decide
  · decide
  · decide
  · exact isNamePart_of_isDigit hdigit

theorem isBare_quote (quoting : Quoting) : IsBare quoting.mark?.toList := by
  cases quoting <;> simp [Quoting.mark?, IsBare]

end Bare

/-! ### What a segment tells about its end -/

section Ends

variable {s : List Char}

theorem hasTagStart_cons (c : Char) (h : hasTagStart s = true) : hasTagStart (c :: s) = true := by
  unfold hasTagStart
  split
  · rename_i hs
    cases hs
    rw [h, Bool.or_true]
  · rename_i hs
    cases hs
    exact h
  · rename_i hs
    cases hs

theorem hasTagStart_append (front : List Char) (h : hasTagStart s = true) :
    hasTagStart (front ++ s) = true := by
  induction front with
  | nil => exact h
  | cons c front ih => exact hasTagStart_cons c ih

theorem hasTagStart_eq_false (hs : IsBare s) : hasTagStart s = false := by
  induction s with
  | nil => rfl
  | cons c s ih =>
    obtain ⟨⟨hc, -⟩, hs⟩ := isBare_cons.1 hs
    unfold hasTagStart
    split
    · rename_i heq
      cases heq
      exact absurd rfl hc
    · rename_i heq
      cases heq
      exact ih hs
    · rfl

/-- The text behind the last closing bracket decides whether a start tag is open. -/
theorem endsInTag_append (front : List Char) (hs : '>' ∉ s) :
    endsInTag (front ++ s) = hasTagStart ((front.reverse.takeWhile (· != '>')).reverse ++ s) := by
  rw [endsInTag, List.reverse_append, List.takeWhile_append_of_pos, List.reverse_append,
    List.reverse_reverse]
  intro c hc
  have : c ≠ '>' := fun h => hs (h ▸ List.mem_reverse.1 hc)
  simpa using this

theorem endsInContent_append (front : List Char) (hs : IsBare s) :
    endsInContent (front ++ s) = endsInContent front := by
  rw [endsInContent, List.reverse_append, List.dropWhile_append_of_pos]
  · rfl
  · intro c hc
    have := hs c (List.mem_reverse.1 hc)
    simpa using this

theorem endsInTag_of_isBare (hs : IsBare s) : endsInTag s = false := by
  rw [← List.nil_append s, endsInTag_append [] fun h => (hs _ h).2 rfl]
  exact hasTagStart_eq_false hs

theorem endsInContent_of_isBare (hs : IsBare s) : endsInContent s = false := by
  rw [← List.nil_append s, endsInContent_append [] hs]
  rfl

/-- A segment without brackets leaves it to the ones in front of it. -/
theorem leavesTagOpen_bare (hs : IsBare s) (before : List (List Char)) :
    leavesTagOpen (s :: before) = leavesTagOpen before := by
  rw [leavesTagOpen, endsInTag_of_isBare hs, endsInContent_of_isBare hs]
  simp

theorem leavesTagOpen_closed (front : List Char) (hs : IsBare s) (before : List (List Char)) :
    leavesTagOpen ((front ++ ['>'] ++ s) :: before) = false := by
  have htag : endsInTag (front ++ ['>'] ++ s) = false := by
    rw [endsInTag_append _ fun h => (hs _ h).2 rfl]
    simpa using hasTagStart_eq_false hs
  have hcontent : endsInContent (front ++ ['>'] ++ s) = true := by
    rw [endsInContent_append _ hs]
    simp [endsInContent]
  rw [leavesTagOpen, htag, hcontent]
  simp

theorem leavesTagOpen_begun {c : Char} (front : List Char) (hc : isLetter c = true)
    (hbare : IsBare (c :: s)) (hs : s ≠ []) (before : List (List Char)) :
    leavesTagOpen ((front ++ '<' :: c :: s) :: before) = true := by
  have hmem : '>' ∉ '<' :: c :: s := by
    intro h
    rcases List.mem_cons.1 h with h | h
    · cases h
    · exact (hbare _ h).2 rfl
  have htag : endsInTag (front ++ '<' :: c :: s) = true := by
    rw [endsInTag_append _ hmem]
    refine hasTagStart_append _ ?_
    obtain ⟨d, s, rfl⟩ := List.exists_cons_of_ne_nil hs
    rw [hasTagStart, hc, Bool.true_or]
  rw [leavesTagOpen, if_pos htag]

/-- A name, an equals sign and perhaps a quote make an attribute without its value. -/
theorem openAttribute?_append {name : List Char} (hname : IsAttributeName name) (quoting : Quoting)
    (front : List Char) :
    openAttribute? (front ++ ' ' :: name ++ '=' :: quoting.mark?.toList)
      = some ⟨front ++ [' '], name, quoting.mark?⟩ := by
  have hparts : ∀ c ∈ name.reverse, isHoleNamePart c = true := by
    intro c hc
    have := hname.parts c (List.mem_reverse.1 hc)
    simp only [isNamePart, Bool.and_eq_true] at this
    exact this.1.1.1
  have htake : (name.reverse ++ ' ' :: front.reverse).takeWhile isHoleNamePart = name.reverse := by
    rw [List.takeWhile_append_of_pos hparts, List.takeWhile_cons_of_neg (by decide), List.append_nil]
  have hdrop : (name.reverse ++ ' ' :: front.reverse).dropWhile isHoleNamePart
      = ' ' :: front.reverse := by
    rw [List.dropWhile_append_of_pos hparts, List.dropWhile_cons_of_neg (by decide)]
  have htrim : trimStart (name.reverse ++ ' ' :: front.reverse)
      = name.reverse ++ ' ' :: front.reverse := by
    obtain ⟨c, rest, hrev⟩ := List.exists_cons_of_ne_nil (List.reverse_ne_nil_iff.2 hname.nonempty)
    have hc := hparts c (hrev ▸ List.mem_cons_self)
    rw [hrev, List.cons_append, trimStart, List.dropWhile_cons_of_neg]
    intro hblank
    rw [isHoleNamePart, hblank] at hc
    simp at hc
  have hclosing : closingQuote (front ++ ' ' :: name ++ '=' :: quoting.mark?.toList).reverse
      = (quoting.mark?, '=' :: (name.reverse ++ ' ' :: front.reverse)) := by
    cases quoting <;> simp [Quoting.mark?, closingQuote]
  have hequals : trimStart ('=' :: (name.reverse ++ ' ' :: front.reverse))
      = '=' :: (name.reverse ++ ' ' :: front.reverse) :=
    List.dropWhile_cons_of_neg (by decide)
  have hne : name.reverse.isEmpty = false := by simpa using hname.nonempty
  simp only [openAttribute?, hclosing, hequals, htrim, htake, hdrop, hne]
  simp

end Ends

/-! ### Segments cut at gaps -/

section Segments

variable {front s : List Char} {w : List (Option Char)} {before : List (List Char)} {i : Nat}

theorem segmentsFrom_plain (front s : List Char) (w : List (Option Char)) :
    segmentsFrom front (plain s ++ w) = segmentsFrom (front ++ s) w := by
  induction s generalizing front with
  | nil => simp [plain]
  | cons c s ih =>
    show segmentsFrom (front ++ [c]) (plain s ++ w) = _
    rw [ih, List.append_assoc]
    rfl

theorem segmentsFrom_ne_nil (front : List Char) (w : List (Option Char)) :
    segmentsFrom front w ≠ [] := by
  induction w generalizing front with
  | nil => simp [segmentsFrom]
  | cons c w ih =>
    cases c with
    | none => simp [segmentsFrom]
    | some c => exact ih _

theorem length_segmentsFrom (front : List Char) (w : List (Option Char)) :
    (segmentsFrom front w).length = w.count none + 1 := by
  induction w generalizing front with
  | nil => rfl
  | cons c w ih =>
    cases c with
    | none => simp [segmentsFrom, ih]
    | some c => simp [segmentsFrom, ih]

theorem joined_hole_outside (h : leavesTagOpen (front :: before) = false) :
    joined before i (segmentsFrom front (none :: w))
      = front ++ markerComment i ++ joined (front :: before) (i + 1) (segmentsFrom [] w) := by
  have hrest : (segmentsFrom [] w).isEmpty = false := by
    simpa using segmentsFrom_ne_nil [] w
  rw [segmentsFrom, joined, h, hrest]
  cases openAttribute? front <;> simp

theorem joined_hole_inside {tail : OpenAttribute} (htail : openAttribute? front = some tail)
    (h : leavesTagOpen (front :: before) = true) :
    joined before i (segmentsFrom front (none :: w))
      = tail.marked i ++ joined (front :: before) (i + 1) (segmentsFrom [] w) := by
  rw [segmentsFrom, joined, htail, h]
  rfl

theorem joined_last (h : leavesTagOpen (front :: before) = false) :
    joined before i (segmentsFrom front []) = front := by
  rw [segmentsFrom, joined, h]
  cases openAttribute? front <;> simp [joined]

end Segments

/-! ### Places in a template -/

/-- A place in a template: the segments in front of it, last one first, and the beginning of the
segment that it is in. -/
structure Cursor where
  before : List (List Char)
  front : List Char

namespace Cursor

/-- The place behind some text. -/
def past (c : Cursor) (s : List Char) : Cursor :=
  { c with front := c.front ++ s }

/-- The place behind a hole. -/
def pastHole (c : Cursor) : Cursor :=
  ⟨c.front :: c.before, []⟩

/-- Inside a start tag: that is so for all text from here up to the next bracket. -/
def IsInside (c : Cursor) : Prop :=
  ∀ s, IsBare s → s ≠ [] → leavesTagOpen ((c.past s).front :: c.before) = true

/-- Outside of all start tags, here and up to the next bracket. -/
def IsOutside (c : Cursor) : Prop :=
  ∀ s, IsBare s → leavesTagOpen ((c.past s).front :: c.before) = false

/-- What the template from a place on gives with its holes marked, the first of them with a number. -/
def joined (c : Cursor) (i : Nat) (w : List (Option Char)) : List Char :=
  Template.joined c.before i (segmentsFrom c.front w)

variable {c : Cursor} {s : List Char}

theorem past_past (c : Cursor) (s t : List Char) : (c.past s).past t = c.past (s ++ t) := by
  simp [past]

theorem joined_plain (c : Cursor) (i : Nat) (s : List Char) (w : List (Option Char)) :
    c.joined i (plain s ++ w) = (c.past s).joined i w := by
  rw [joined, segmentsFrom_plain]
  rfl

theorem isOutside_start : IsOutside ⟨[], []⟩ := by
  intro s hs
  show leavesTagOpen [s] = false
  rw [leavesTagOpen_bare hs]
  rfl

theorem IsOutside.past (h : c.IsOutside) (hs : IsBare s) : (c.past s).IsOutside := by
  intro t ht
  rw [past_past]
  exact h _ (isBare_append.2 ⟨hs, ht⟩)

theorem IsInside.past (h : c.IsInside) (hs : IsBare s) : (c.past s).IsInside := by
  intro t ht hne
  rw [past_past]
  exact h _ (isBare_append.2 ⟨hs, ht⟩) (List.append_ne_nil_of_right_ne_nil _ hne)

theorem isOutside_past_closed (c : Cursor) (s : List Char) : (c.past (s ++ ['>'])).IsOutside := by
  intro t ht
  have := leavesTagOpen_closed (c.front ++ s) ht c.before
  simpa [Cursor.past] using this

theorem isInside_past_begun (c : Cursor) {name : List Char} (hname : IsElementName name) :
    (c.past ('<' :: name)).IsInside := by
  intro t ht hne
  obtain ⟨d, rest, rfl, hletter⟩ := hname.exists_eq_cons
  have := leavesTagOpen_begun c.front hletter (isBare_append.2 ⟨hname.isBare, ht⟩)
    (List.append_ne_nil_of_right_ne_nil rest hne) c.before
  simpa [Cursor.past] using this

theorem IsOutside.leavesTagOpen (h : c.IsOutside) : leavesTagOpen (c.front :: c.before) = false := by
  have := h [] isBare_nil
  rwa [Cursor.past, List.append_nil] at this

theorem IsOutside.pastHole (h : c.IsOutside) : c.pastHole.IsOutside := by
  intro s hs
  exact (leavesTagOpen_bare hs _).trans h.leavesTagOpen

theorem isInside_pastHole (h : Template.leavesTagOpen (c.front :: c.before) = true) :
    c.pastHole.IsInside := by
  intro s hs _
  exact (leavesTagOpen_bare hs _).trans h

end Cursor

/-! ### Marked templates -/

/-- An attribute with its hole marked as the one with a number. -/
def Attribute.marked (i : Nat) : Attribute → List Char
  | fixed name written => quoted name '"' written
  | hole name quoting => quoted (marker i).toList (quoting.mark?.getD '"') name

/-- Attributes with their holes marked, from a number on. -/
def markedIn (i : Nat) : List Attribute → List Char
  | [] => []
  | a :: rest => a.marked i ++ markedIn (i + a.gaps) rest

/-- A start tag with its holes marked. -/
def markedTag (i : Nat) (name : List Char) (attributes : List Attribute) : List Char :=
  '<' :: name ++ markedIn i attributes ++ ['>']

mutual

/-- A node with its holes marked, from a number on. -/
def Source.marked (i : Nat) : Source → List Char
  | .text written => written
  | .comment data => commentOf data
  | .hole => markerComment i
  | .element name attributes children =>
    markedTag i name attributes
      ++ if isVoidName name then [] else markedAll (i + gapsIn attributes) children ++ endTag name
  | .raw name attributes none =>
    markedTag i name attributes ++ markerComment (i + gapsIn attributes) ++ endTag name
  | .raw name attributes (some s) => markedTag i name attributes ++ s ++ endTag name

/-- Some nodes with their holes marked, from a number on. -/
def markedAll (i : Nat) : List Source → List Char
  | [] => []
  | node :: rest => node.marked i ++ markedAll (i + node.gaps) rest

end

/-- From places of one kind, a piece of a template with `n` holes leads to places of another kind and
gives `m` as its marked text. The text is only given out up to the place reached, as the end of a segment
is changed if it is an attribute without its value. -/
def Marks (P Q : Cursor → Prop) (n : Nat) (w : List (Option Char)) (m : Nat → List Char) : Prop :=
  ∀ c i, P c → ∃ c' out, Q c' ∧ out ++ c'.front = c.front ++ m i ∧
    ∀ l, c.joined i (w ++ l) = out ++ c'.joined (i + n) l

namespace Marks

variable {P Q R : Cursor → Prop} {n n' : Nat} {w w' : List (Option Char)}
  {m m' : Nat → List Char} {s : List Char}

theorem trans (h : Marks P Q n w m) (h' : Marks Q R n' w' m') :
    Marks P R (n + n') (w ++ w') fun i => m i ++ m' (i + n) := by
  intro c i hc
  obtain ⟨c', out, hc', hout, hjoined⟩ := h c i hc
  obtain ⟨c'', out', hc'', hout', hjoined'⟩ := h' c' (i + n) hc'
  refine ⟨c'', out ++ out', hc'', ?_, fun l => ?_⟩
  · rw [List.append_assoc, hout', ← List.append_assoc, hout, List.append_assoc]
  · rw [List.append_assoc, hjoined, hjoined', List.append_assoc, Nat.add_assoc]

theorem plain (h : ∀ c, P c → Q (c.past s)) : Marks P Q 0 (plain s) fun _ => s :=
  fun c i hc => ⟨c.past s, [], h c hc, rfl, fun l => c.joined_plain i s l⟩

theorem nil : Marks P P 0 [] fun _ => [] :=
  fun c _ hc => ⟨c, [], hc, (List.append_nil _).symm, fun _ => rfl⟩

theorem hole : Marks Cursor.IsOutside Cursor.IsOutside 1 [none] markerComment := by
  intro c i hc
  refine ⟨c.pastHole, c.front ++ markerComment i, hc.pastHole, List.append_nil _, fun l => ?_⟩
  exact joined_hole_outside hc.leavesTagOpen

end Marks

theorem marks_attribute {a : Attribute} (ha : a.IsWellFormed) :
    Marks Cursor.IsInside Cursor.IsInside a.gaps a.cut a.marked := by
  cases a with
  | fixed name written =>
    obtain ⟨hname, -, -, hwritten, -⟩ := ha
    refine Marks.plain fun c hc => hc.past ?_
    simp only [quoted, List.cons_append, List.append_assoc, List.nil_append, isBare_cons,
      isBare_append]
    exact ⟨by decide, hname.isBare, by decide, by decide, hwritten, by decide, isBare_nil⟩
  | hole name quoting =>
    have hbare : IsBare (' ' :: name ++ '=' :: quoting.mark?.toList) := by
      rw [List.cons_append, isBare_cons, isBare_append, isBare_cons]
      exact ⟨by decide, IsAttributeName.isBare ha, by decide, isBare_quote quoting⟩
    intro c i hc
    have hopen := hc _ hbare (List.cons_ne_nil _ _)
    have htail : openAttribute? (c.past (' ' :: name ++ '=' :: quoting.mark?.toList)).front
        = some ⟨c.front ++ [' '], name, quoting.mark?⟩ := by
      rw [← openAttribute?_append ha quoting c.front, Cursor.past, List.append_assoc]
    refine ⟨(c.past (' ' :: name ++ '=' :: quoting.mark?.toList)).pastHole.past quoting.mark?.toList,
      OpenAttribute.marked ⟨c.front ++ [' '], name, quoting.mark?⟩ i,
      (Cursor.isInside_pastHole hopen).past (isBare_quote quoting), ?_, fun l => ?_⟩
    · cases quoting <;>
        simp [Cursor.past, Cursor.pastHole, OpenAttribute.marked, Attribute.marked, quoted, Quoting.mark?]
    · rw [Attribute.cut, List.append_assoc, Cursor.joined_plain]
      refine (joined_hole_inside htail hopen).trans ?_
      rw [← Cursor.joined_plain]
      rfl

theorem marks_attributes {attributes : List Attribute} (h : ∀ a ∈ attributes, a.IsWellFormed) :
    Marks Cursor.IsInside Cursor.IsInside (gapsIn attributes) (attributes.flatMap Attribute.cut)
      fun i => markedIn i attributes := by
  induction attributes with
  | nil => exact Marks.nil
  | cons a rest ih =>
    obtain ⟨ha, hrest⟩ := List.forall_mem_cons.1 h
    exact (marks_attribute ha).trans (ih hrest)

theorem marks_tag {name : List Char} {attributes : List Attribute} (hname : IsElementName name)
    (h : ∀ a ∈ attributes, a.IsWellFormed) :
    Marks Cursor.IsOutside Cursor.IsOutside (gapsIn attributes) (cutTag name attributes)
      fun i => markedTag i name attributes := by
  have hbegin : Marks Cursor.IsOutside Cursor.IsInside 0 (plain ('<' :: name)) fun _ => '<' :: name :=
    .plain fun c _ => c.isInside_past_begun hname
  have hend : Marks Cursor.IsInside Cursor.IsOutside 0 (plain ['>']) fun _ => ['>'] :=
    .plain fun c _ => c.isOutside_past_closed []
  have := (hbegin.trans (marks_attributes h)).trans hend
  simpa [cutTag, markedTag] using this

theorem marks_endTag (name : List Char) :
    Marks Cursor.IsOutside Cursor.IsOutside 0 (plain (endTag name)) fun _ => endTag name :=
  .plain fun c _ => c.isOutside_past_closed ('<' :: '/' :: name)

theorem isElementName_of_raw {name : List Char} (h : name ∈ ["style".toList, "textarea".toList]) :
    IsElementName name := by
  simp only [List.mem_cons, List.not_mem_nil, or_false] at h
  rcases h with rfl | rfl <;> decide

theorem marks_source :
    (∀ node : Source, node.IsWellFormed →
      Marks Cursor.IsOutside Cursor.IsOutside node.gaps node.cut node.marked) ∧
    ∀ nodes : List Source, AreAllWellFormed nodes →
      Marks Cursor.IsOutside Cursor.IsOutside (gapsAll nodes) (cutAll nodes) fun i => markedAll i nodes := by
  refine Source.induct ?_ ?_ ?_ ?_ ?_ ?_ ?_
  · intro written h
    exact Marks.plain fun c hc => hc.past h.2
  · intro data _
    refine Marks.plain fun c _ => ?_
    have := c.isOutside_past_closed (['<', '!', '-', '-'] ++ data ++ ['-', '-'])
    simpa [commentOf] using this
  · intro _
    exact Marks.hole
  · intro name attributes children ih h
    obtain ⟨hname, -, hattributes, hvoid, hchildren⟩ := h
    have htag := marks_tag hname hattributes.each
    cases hv : isVoidName name with
    | true => simpa [Source.cut, Source.marked, Source.gaps, hv, hvoid hv, gapsAll] using htag
    | false =>
      have := htag.trans ((ih hchildren).trans (marks_endTag name))
      simpa [Source.cut, Source.marked, Source.gaps, hv] using this
  · intro name attributes content h
    obtain ⟨hname, hattributes, hcontent⟩ := h
    have htag := marks_tag (isElementName_of_raw hname) hattributes.each
    cases content with
    | none =>
      have := htag.trans (Marks.hole.trans (marks_endTag name))
      simpa [Source.cut, Source.marked, Source.gaps] using this
    | some s =>
      have hs : Marks Cursor.IsOutside Cursor.IsOutside 0 (plain s) fun _ => s :=
        .plain fun c hc => hc.past (hcontent s rfl).1
      have := htag.trans (hs.trans (marks_endTag name))
      simpa [Source.cut, Source.marked, Source.gaps] using this
  · intro _
    exact Marks.nil
  · intro node rest ihnode ihrest h
    obtain ⟨hnode, -, hrest⟩ := h
    exact (ihnode hnode).trans (ihrest hrest)

/-! ### Tags that close themselves -/

/-- Text in which no tag closes itself, and out of which none reaches. -/
def IsCalm (s : List Char) : Prop :=
  ∀ rest, expandSelfClosing (s ++ rest) = s ++ expandSelfClosing rest

section Calm

variable {s t name : List Char} {i : Nat}

theorem isCalm_nil : IsCalm [] :=
  fun _ => rfl

theorem IsCalm.append (hs : IsCalm s) (ht : IsCalm t) : IsCalm (s ++ t) := by
  intro rest
  rw [List.append_assoc, hs, ht, List.append_assoc]

theorem expandSelfClosing_of_some {tag : SelfClosing} (h : selfClosing? s = some tag) :
    expandSelfClosing ('<' :: s) = tag.expanded ++ expandSelfClosing tag.rest := by
  rw [expandSelfClosing, if_pos rfl]
  split
  · rename_i heq
    cases h.symm.trans heq
    rfl
  · rename_i heq
    cases h.symm.trans heq

theorem expandSelfClosing_of_none (h : selfClosing? s = none) :
    expandSelfClosing ('<' :: s) = '<' :: expandSelfClosing s := by
  rw [expandSelfClosing, if_pos rfl]
  split
  · rename_i heq
    cases h.symm.trans heq
  · rfl

theorem isCalm_of_notMem (h : '<' ∉ s) : IsCalm s := by
  intro rest
  induction s with
  | nil => rfl
  | cons c s ih =>
    rw [List.mem_cons, not_or] at h
    rw [List.cons_append, expandSelfClosing, if_neg (Ne.symm h.1), ih h.2]
    rfl

theorem IsBare.isCalm (h : IsBare s) : IsCalm s :=
  isCalm_of_notMem fun hmem => (h _ hmem).1 rfl

theorem getLast?_ne_of_suffix (h : t <:+ s) (hs : s.getLast? ≠ some '/') : t.getLast? ≠ some '/' := by
  obtain ⟨front, rfl⟩ := h
  intro ht
  rw [List.getLast?_append, ht] at hs
  exact hs rfl

/-- Whether a tag closes itself is decided in front of its first closing bracket. -/
theorem selfClosing?_upTo (hs : '>' ∉ s) (rest : List Char) :
    selfClosing? (s ++ '>' :: rest) =
      if s.head?.any isLetter then
        let inner := s.dropWhile isSelfClosingNamePart
        if inner.getLast? = some '/' then
          some ⟨s.takeWhile isSelfClosingNamePart, inner.dropLast, rest⟩
        else none
      else none := by
  have hhead : (s ++ '>' :: rest).head?.any isLetter = s.head?.any isLetter := by
    cases s with
    | nil => rfl
    | cons c s => rfl
  have hname : (s ++ '>' :: rest).takeWhile isSelfClosingNamePart
      = s.takeWhile isSelfClosingNamePart := by
    rw [List.takeWhile_append]
    split
    · rename_i h
      rw [(List.takeWhile_prefix _).eq_of_length h, List.takeWhile_cons_of_neg (by decide),
        List.append_nil]
    · rfl
  have hinner : (s ++ '>' :: rest).dropWhile isSelfClosingNamePart
      = s.dropWhile isSelfClosingNamePart ++ '>' :: rest := by
    rw [List.dropWhile_append]
    split
    · rename_i h
      rw [List.isEmpty_iff.1 h, List.dropWhile_cons_of_neg (by decide), List.nil_append]
    · rfl
  have hpos : ∀ c ∈ s.dropWhile isSelfClosingNamePart, (c != '>') = true := by
    intro c hc
    have : c ≠ '>' := fun h => hs (h ▸ (List.dropWhile_suffix _).subset hc)
    simpa using this
  simp only [selfClosing?, hhead, hname, hinner, List.takeWhile_append_of_pos hpos,
    List.dropWhile_append_of_pos hpos]
  simp

/-- A tag whose first closing bracket does not follow a slash does not close itself. -/
theorem selfClosing?_eq_none (hs : '>' ∉ s) (hlast : s.getLast? ≠ some '/') (rest : List Char) :
    selfClosing? (s ++ '>' :: rest) = none := by
  rw [selfClosing?_upTo hs]
  dsimp only
  rw [if_neg (getLast?_ne_of_suffix (List.dropWhile_suffix _) hlast), ite_self]

theorem isCalm_tag (hs : IsBare s) (hlast : s.getLast? ≠ some '/') : IsCalm ('<' :: s ++ ['>']) := by
  intro rest
  have hnone := selfClosing?_eq_none (fun h => (hs _ h).2 rfl) hlast rest
  have hcalm : IsCalm (s ++ ['>']) :=
    isCalm_of_notMem fun h => by
      rcases List.mem_append.1 h with h | h
      · exact (hs _ h).1 rfl
      · cases List.mem_singleton.1 h
  have := hcalm rest
  rw [List.append_assoc, List.singleton_append] at this
  rw [List.cons_append, List.cons_append, List.append_assoc, List.singleton_append,
    expandSelfClosing_of_none hnone, this]
  simp

theorem getLast?_append_ne (hs : s.getLast? ≠ some '/') (ht : t.getLast? ≠ some '/') :
    (s ++ t).getLast? ≠ some '/' := by
  rw [List.getLast?_append]
  cases h : t.getLast? with
  | none => exact hs
  | some c => rwa [h] at ht

theorem IsElementName.getLast?_ne (h : IsElementName name) : name.getLast? ≠ some '/' :=
  fun hlast => h.ne (List.mem_of_getLast? hlast) '/' (by decide) rfl

theorem isCalm_comment (hs : IsBare s) : IsCalm (commentOf s) := by
  have hbare : IsBare (['!', '-', '-'] ++ s ++ ['-', '-']) :=
    isBare_append.2 ⟨isBare_append.2 ⟨by simp [IsBare], hs⟩, by simp [IsBare]⟩
  have := isCalm_tag hbare (by simp [List.getLast?_cons])
  simpa [commentOf] using this

theorem isCalm_markerComment (i : Nat) : IsCalm (markerComment i) :=
  isCalm_comment (isAttributeName_marker i).isBare

theorem isCalm_endTag (h : IsElementName name) : IsCalm (endTag name) := by
  refine isCalm_tag (s := '/' :: name) (isBare_cons.2 ⟨by decide, h.isBare⟩) ?_
  obtain ⟨c, rest, rfl, -⟩ := h.exists_eq_cons
  rw [List.getLast?_cons_cons]
  exact h.getLast?_ne

theorem isBare_marked {a : Attribute} (h : a.IsWellFormed) (i : Nat) : IsBare (a.marked i) := by
  cases a with
  | fixed name written =>
    obtain ⟨hname, -, -, hwritten, -⟩ := h
    have := hname.isBare
    simp_all [Attribute.marked, quoted, isBare_append, isBare_cons, isBare_nil]
  | hole name quoting =>
    have hname : IsBare name := IsAttributeName.isBare h
    have hmarker := (isAttributeName_marker i).isBare
    cases quoting <;>
      simp_all [Attribute.marked, quoted, isBare_append, isBare_cons, isBare_nil, Quoting.mark?]

theorem getLast?_marked_ne (a : Attribute) (i : Nat) : (a.marked i).getLast? ≠ some '/' := by
  cases a with
  | fixed name written => simp [Attribute.marked, quoted, List.getLast?_cons]
  | hole name quoting => cases quoting <;> simp [Attribute.marked, quoted, Quoting.mark?, List.getLast?_cons]

theorem isBare_markedIn {attributes : List Attribute} (h : ∀ a ∈ attributes, a.IsWellFormed) (i : Nat) :
    IsBare (markedIn i attributes) ∧ (markedIn i attributes).getLast? ≠ some '/' := by
  induction attributes generalizing i with
  | nil => exact ⟨isBare_nil, by simp [markedIn]⟩
  | cons a rest ih =>
    obtain ⟨ha, hrest⟩ := List.forall_mem_cons.1 h
    obtain ⟨hbare, hlast⟩ := ih hrest (i + a.gaps)
    exact ⟨isBare_append.2 ⟨isBare_marked ha i, hbare⟩, getLast?_append_ne (getLast?_marked_ne a i) hlast⟩

theorem isCalm_markedTag {attributes : List Attribute} (hname : IsElementName name)
    (h : ∀ a ∈ attributes, a.IsWellFormed) (i : Nat) : IsCalm (markedTag i name attributes) := by
  obtain ⟨hbare, hlast⟩ := isBare_markedIn h i
  exact isCalm_tag (isBare_append.2 ⟨hname.isBare, hbare⟩) (getLast?_append_ne hname.getLast?_ne hlast)

theorem isCalm_source :
    (∀ node : Source, node.IsWellFormed → ∀ i, IsCalm (node.marked i)) ∧
    ∀ nodes : List Source, AreAllWellFormed nodes → ∀ i, IsCalm (markedAll i nodes) := by
  refine Source.induct ?_ ?_ ?_ ?_ ?_ ?_ ?_
  · intro written h _
    exact h.2.isCalm
  · intro data h _
    exact isCalm_comment h.1
  · intro _ i
    exact isCalm_markerComment i
  · intro name attributes children ih h i
    obtain ⟨hname, -, hattributes, -, hchildren⟩ := h
    rw [Source.marked]
    refine (isCalm_markedTag hname hattributes.each i).append ?_
    split
    · exact isCalm_nil
    · exact (ih hchildren _).append (isCalm_endTag hname)
  · intro name attributes content h i
    obtain ⟨hname, hattributes, hcontent⟩ := h
    have hname := isElementName_of_raw hname
    have htag := isCalm_markedTag hname hattributes.each i
    cases content with
    | none => exact (htag.append (isCalm_markerComment _)).append (isCalm_endTag hname)
    | some s => exact (htag.append (hcontent s rfl).1.isCalm).append (isCalm_endTag hname)
  · intro _ _
    exact isCalm_nil
  · intro node rest ihnode ihrest h i
    exact (ihnode h.1 i).append (ihrest h.2.2 _)

end Calm

/-! ### The marked text of a template -/

section Trim

variable {s : List Char} {node : Source} {nodes : List Source}

theorem trim_eq_self (hfront : s.head?.any isBlank = false) (hback : s.getLast?.any isBlank = false) :
    Text.trim s = s := by
  have htrim : ∀ t : List Char, t.head?.any isBlank = false → trimStart t = t := by
    intro t ht
    cases t with
    | nil => rfl
    | cons c t => exact List.dropWhile_cons_of_neg (by simpa using ht)
  rw [Text.trim, htrim s hfront, Text.trimEnd, htrim _ (by rwa [List.head?_reverse]),
    List.reverse_reverse]

/-- A node that is no text is between brackets. -/
theorem Source.ends_marked (h : node.isText = false) (i : Nat) :
    (node.marked i).head? = some '<' ∧ (node.marked i).getLast? = some '>' := by
  cases node with
  | text => cases h
  | comment data => simp [marked, commentOf, List.getLast?_cons]
  | hole => simp [marked, markerComment, List.getLast?_cons]
  | element name attributes children =>
    refine ⟨by simp [marked, markedTag], ?_⟩
    rw [marked]
    split <;> simp [markedTag, endTag, List.getLast?_cons]
  | raw name attributes content =>
    cases content <;> simp [marked, markedTag, endTag, List.getLast?_cons]

theorem Source.marked_ne_nil (h : node.IsWellFormed) (i : Nat) : node.marked i ≠ [] := by
  cases htext : node.isText with
  | false =>
    intro hnil
    have := (node.ends_marked htext i).1
    rw [hnil] at this
    cases this
  | true =>
    cases node with
    | text => exact h.1
    | _ => cases htext

theorem head?_markedAll (h : AreTemplate nodes) : (markedAll 0 nodes).head?.any isBlank = false := by
  cases nodes with
  | nil => rfl
  | cons node rest =>
    have hhead : (markedAll 0 (node :: rest)).head? = (node.marked 0).head? := by
      obtain ⟨c, s, hs⟩ := List.exists_cons_of_ne_nil (node.marked_ne_nil h.wellFormed.1 0)
      rw [markedAll, hs]
      rfl
    rw [hhead]
    cases htext : node.isText with
    | false => rw [(node.ends_marked htext 0).1]; rfl
    | true =>
      cases node with
      | text written => exact h.front written rfl
      | _ => cases htext

theorem getLast?_markedAll (h : AreAllWellFormed nodes) (i : Nat)
    (hback : ∀ written, nodes.getLast? = some (.text written) →
      written.getLast?.any isBlank = false) :
    (markedAll i nodes).getLast?.any isBlank = false := by
  induction nodes generalizing i with
  | nil => rfl
  | cons node rest ih =>
    obtain ⟨hnode, -, hrest⟩ := h
    cases rest with
    | nil =>
      rw [markedAll, markedAll, List.append_nil]
      cases htext : node.isText with
      | false => rw [(node.ends_marked htext i).2]; rfl
      | true =>
        cases node with
        | text written => exact hback written rfl
        | _ => cases htext
    | cons next rest =>
      have hne : markedAll (i + node.gaps) (next :: rest) ≠ [] :=
        List.append_ne_nil_of_left_ne_nil (next.marked_ne_nil hrest.1 _) _
      have hlast : (markedAll i (node :: next :: rest)).getLast?
          = (markedAll (i + node.gaps) (next :: rest)).getLast? := by
        rw [markedAll, List.getLast?_append, List.getLast?_eq_some_getLast hne]
        rfl
      rw [hlast]
      exact ih hrest _ hback

end Trim

/-- Every hole of a well-formed template is marked as what it is. -/
theorem joined_cutAll {nodes : List Source} (h : AreAllWellFormed nodes) :
    joined [] 0 (segmentsFrom [] (cutAll nodes)) = markedAll 0 nodes := by
  obtain ⟨c, out, hc, hout, hjoined⟩ := marks_source.2 nodes h ⟨[], []⟩ 0 Cursor.isOutside_start
  have := hjoined []
  rw [List.append_nil] at this
  calc joined [] 0 (segmentsFrom [] (cutAll nodes))
      = out ++ c.joined (0 + gapsAll nodes) [] := this
    _ = out ++ c.front := by rw [Cursor.joined, joined_last hc.leavesTagOpen]
    _ = markedAll 0 nodes := hout

/-- The text that is read for a well-formed template. -/
theorem markHoles_ofSource {nodes : List Source} (h : AreTemplate nodes) (id : Nat) :
    markHoles (ofSource id nodes).segments = String.ofList (markedAll 0 nodes) := by
  have hcalm := isCalm_source.2 nodes h.wellFormed 0 []
  rw [List.append_nil, expandSelfClosing, List.append_nil] at hcalm
  have hsegments : (ofSource id nodes).segments.map String.toList = segmentsFrom [] (cutAll nodes) := by
    simp [ofSource, Function.comp_def]
  rw [markHoles, hsegments, joined_cutAll h.wellFormed,
    trim_eq_self (head?_markedAll h) (getLast?_markedAll h.wellFormed 0 h.back), hcalm]

end LiveMarkup.Template
