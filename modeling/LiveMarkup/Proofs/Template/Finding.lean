import LiveMarkup.Proofs.Rendering.Planning
import LiveMarkup.Proofs.Template.Building
import LiveMarkup.Proofs.Template.Holes
/-!
# Finding the holes of a template

The search goes through what has been read for a well-formed template, and finds its holes one after
another: the marker that is looked for is always the next one in the text, and nothing else looks like it.
So the holes have the kinds and places that they were written with, and what is left is the content that
was written, without the markers of attributes (`finds_source`).

A start tag takes one step for each of its holes. Between two steps the attributes without hole are kept
in front (`takeMarkers_readIn`).
-/

namespace LiveMarkup.Template

open Markup (Tree Tag)

variable {name : List Char} {attributes : List Attribute} {path : List Nat} {s s' : Search}
  {front : List (String × String)}

/-! ### Counting holes -/

theorem length_filterMap_hole? (path : List Nat) (attributes : List Attribute) :
    (attributes.filterMap (Attribute.hole? path)).length = gapsIn attributes := by
  induction attributes with
  | nil => rfl
  | cons a attributes ih =>
    have hgaps : gapsIn (a :: attributes) = a.gaps + gapsIn attributes := List.sum_cons
    rw [hgaps, ← ih]
    cases a with
    | fixed name written => exact (Nat.zero_add _).symm
    | hole name quoting => exact Nat.add_comm _ 1

theorem length_holes :
    (∀ (node : Source) (path : List Nat), (node.holes path).length = node.gaps) ∧
      ∀ (nodes : List Source) (path : List Nat) (k : Nat),
        (holesAll path k nodes).length = gapsAll nodes := by
  refine Source.induct ?_ ?_ ?_ ?_ ?_ ?_ ?_
  · intro written path
    rfl
  · intro data path
    rfl
  · intro path
    rfl
  · intro name attributes children ih path
    rw [Source.holes, List.length_append, length_filterMap_hole?, ih, Source.gaps]
  · intro name attributes content path
    cases content with
    | none => rw [Source.holes, List.length_append, length_filterMap_hole?]; rfl
    | some s => exact length_filterMap_hole? path attributes
  · intro path k
    rfl
  · intro node rest ihnode ihrest path k
    rw [holesAll, List.length_append, ihnode, ihrest, gapsAll]

theorem count_plain (s : List Char) : (plain s).count none = 0 :=
  List.count_eq_zero.2 (by simp [plain])

theorem count_cutTag (name : List Char) (attributes : List Attribute) :
    (cutTag name attributes).count none = gapsIn attributes := by
  have hattribute : ∀ a : Attribute, a.cut.count none = a.gaps := by
    intro a
    cases a <;> simp [Attribute.cut, Attribute.gaps, count_plain]
  simp [cutTag, count_plain, List.count_flatMap, gapsIn, Function.comp_def, hattribute]

/-- A well-formed template has as many gaps as holes. -/
theorem count_cut :
    (∀ node : Source, node.IsWellFormed → node.cut.count none = node.gaps) ∧
      ∀ nodes : List Source, AreAllWellFormed nodes → (cutAll nodes).count none = gapsAll nodes := by
  refine Source.induct ?_ ?_ ?_ ?_ ?_ ?_ ?_
  · intro written _
    exact count_plain written
  · intro data _
    exact count_plain _
  · intro _
    rfl
  · intro name attributes children ih h
    obtain ⟨-, -, -, hvoid, hchildren⟩ := h
    rw [Source.cut, List.count_append, count_cutTag, Source.gaps]
    cases hv : isVoidName name with
    | true => rw [hvoid hv]; rfl
    | false => rw [if_neg Bool.false_ne_true, List.count_append, count_plain, ih hchildren]; rfl
  · intro name attributes content _
    cases content <;> simp [Source.cut, Source.gaps, count_cutTag, count_plain]
  · intro _
    rfl
  · intro node rest ihnode ihrest h
    rw [cutAll, List.count_append, ihnode h.1, ihrest h.2.2, gapsAll]

theorem gaps_ofSource {nodes : List Source} (h : AreAllWellFormed nodes) (id : Nat) :
    (ofSource id nodes).gaps = gapsAll nodes := by
  rw [gaps, ofSource, List.length_map, length_segmentsFrom, count_cut.2 nodes h, Nat.add_sub_cancel]

/-! ### Start tags -/

theorem find?_wanted (h : s.wanted ∉ front.map Prod.fst) :
    front.find? (·.1 == s.wanted) = none := by
  refine List.find?_eq_none.2 fun a ha heq => h ?_
  rw [← eq_of_beq heq]
  exact List.mem_map_of_mem ha

theorem takeMarkers_of_notMem (h : s.wanted ∉ front.map Prod.fst) :
    takeMarkers path front s = (front, s) := by
  unfold takeMarkers
  split
  · rename_i hsome
    rw [find?_wanted h] at hsome
    cases hsome
  · rfl

/-- The wanted marker is taken off the attributes. -/
theorem takeMarkers_append (h : s.wanted ∉ front.map Prod.fst) (value : String)
    (rest : List (String × String)) :
    takeMarkers path (front ++ (s.wanted, value) :: rest) s
      = takeMarkers path (front ++ rest) (s.record (.attr value) path) := by
  have hsome : (front ++ (s.wanted, value) :: rest).find? (·.1 == s.wanted)
      = some (s.wanted, value) := by
    rw [List.find?_append, find?_wanted h, List.find?_cons, beq_self_eq_true]
    rfl
  have herase : (front ++ (s.wanted, value) :: rest).erase (s.wanted, value) = front ++ rest := by
    rw [List.erase_append_right _ fun hmem => h (List.mem_map_of_mem hmem), List.erase_cons_head]
  rw [takeMarkers]
  split
  · rename_i found hfound
    rw [hsome] at hfound
    cases hfound
    rw [herase]
  · rename_i hfound
    rw [hsome] at hfound
    cases hfound

/-- All markers are taken off a start tag, and recorded in order. -/
theorem takeMarkers_readIn (h : ∀ a ∈ attributes, a.IsWellFormed)
    (hfront : ∀ j, marker j ∉ front.map Prod.fst) (path : List Nat) (s : Search) :
    (takeMarkers path (front ++ readIn s.found.length attributes) s).1
        = front ++ attributes.filterMap Attribute.fixed? ∧
      s.Finds (takeMarkers path (front ++ readIn s.found.length attributes) s).2
        (attributes.filterMap (Attribute.hole? path)) := by
  induction attributes generalizing front s with
  | nil =>
    rw [readIn, List.append_nil, takeMarkers_of_notMem (hfront _)]
    exact ⟨(List.append_nil front).symm, .refl s⟩
  | cons a attributes ih =>
    obtain ⟨ha, hattributes⟩ := List.forall_mem_cons.1 h
    cases a with
    | fixed name written =>
      have hfixed : ∀ j, marker j ∉
          (front ++ [(String.ofList name, String.ofList (Markup.Reference.decode written))]).map
            Prod.fst := by
        intro j hmem
        rw [List.map_append, List.mem_append, List.map_singleton, List.mem_singleton] at hmem
        rcases hmem with hmem | hmem
        · exact hfront j hmem
        · exact ha.2.2.1 j (by rw [hmem]; exact String.toList_ofList.symm)
      have := ih hattributes hfixed s
      rw [List.append_assoc, List.append_assoc] at this
      exact this
    | hole name quoting =>
      have := ih hattributes hfront (s.record (.attr (String.ofList name)) path)
      rw [readIn, Attribute.read, show marker s.found.length = s.wanted from rfl,
        takeMarkers_append (hfront _)]
      exact ⟨this.1, (s.finds_record _ _).trans this.2⟩

theorem readIn_eq_fixed (h : gapsIn attributes = 0) (i : Nat) :
    readIn i attributes = attributes.filterMap Attribute.fixed? := by
  induction attributes generalizing i with
  | nil => rfl
  | cons a attributes ih =>
    have hgaps : gapsIn (a :: attributes) = a.gaps + gapsIn attributes := List.sum_cons
    cases a with
    | fixed name written =>
      rw [readIn, ih (by omega), filterMap_fixed_cons]
      rfl
    | hole name quoting =>
      have : Attribute.gaps (.hole name quoting) = 1 := rfl
      omega

/-- Nothing is taken off a node without holes. -/
theorem read_eq_content :
    (∀ node : Source, ∀ i, node.gaps = 0 → node.read i = node.content i) ∧
      ∀ nodes : List Source, ∀ i, gapsAll nodes = 0 → readAll i nodes = contentAll i nodes := by
  refine Source.induct ?_ ?_ ?_ ?_ ?_ ?_ ?_
  · intro written i _
    rfl
  · intro data i _
    rfl
  · intro i _
    rfl
  · intro name attributes children ih i h
    rw [Source.gaps] at h
    rw [Source.read, Source.content, readTag, readIn_eq_fixed (by omega), ih _ (by omega)]
    rfl
  · intro name attributes content i h
    cases content with
    | none => cases h
    | some s =>
      rw [Source.read, Source.content, readTag, readIn_eq_fixed h]
      rfl
  · intro i _
    rfl
  · intro node rest ihnode ihrest i h
    rw [gapsAll] at h
    rw [readAll, contentAll, ihnode i (by omega), ihrest _ (by omega)]

/-! ### Elements with text as content -/

theorem textContentAll_textOf (s : List Char) :
    (Markup.textContentAll (textOf s)).toList = s := by
  cases s with
  | nil => rfl
  | cons c s => simp [textOf, Markup.textContentAll, Tree.textContent]

theorem trim_markerComment (i : Nat) : Text.trim (markerComment i) = markerComment i :=
  trim_eq_self rfl (by
    rw [markerComment, List.getLast?_append]
    rfl)

theorem trim_ne_markerComment {text : List Char} (h : IsBare text) (i : Nat) :
    Text.trim text ≠ markerComment i := by
  intro heq
  have hmem : '<' ∈ Text.trim text := by
    rw [heq]
    exact List.mem_cons_self
  rw [Text.trim, Text.trimEnd, List.mem_reverse] at hmem
  have hmem := List.mem_reverse.1 ((List.dropWhile_sublist Text.isBlank).mem hmem)
  exact (h _ ((List.dropWhile_sublist Text.isBlank).mem hmem)).1 rfl

theorem holdsTextMarker_raw (hname : name ∈ ["style".toList, "textarea".toList]) (i : Nat)
    (attributes : List Attribute) (text : List Char) (s : Search) :
    holdsTextMarker (readTag i name attributes) (textOf text) s
      = (Text.trim text == markerComment s.found.length) := by
  have hraw : (Text.sameLetters name "style".toList || Text.sameLetters name "textarea".toList) = true := by
    revert name
    decide
  have hnamed : (readTag i name attributes).name.toList = name := String.toList_ofList
  rw [holdsTextMarker, hnamed, hraw, Bool.true_and, textContentAll_textOf]

theorem holdsTextMarker_element {tag : Tag} (hname : IsElementName tag.name.toList)
    (h : tag.name.toList ∉ ["style".toList, "textarea".toList]) (children : List Tree) (s : Search) :
    holdsTextMarker tag children s = false := by
  have hne : ∀ n ∈ ["style".toList, "textarea".toList], Text.sameLetters tag.name.toList n = false := by
    intro n hn
    have hlower : Text.lower n = n := by
      revert n
      decide
    rw [Text.sameLetters, hname.lower_eq, hlower]
    exact beq_false_of_ne fun heq => h (heq ▸ hn)
  rw [holdsTextMarker, hne _ (by decide), hne _ (by decide)]
  rfl

/-! ### Nodes -/

/-- What is found at a start tag: the holes of its attributes, and the text behind it if that is the
marker that is wanted then. -/
theorem searchTag_readTag (name : List Char) (h : AreWellFormed attributes) (path : List Nat)
    (children : List Tree) (s : Search) :
    ∃ s', s.Finds s' (attributes.filterMap (Attribute.hole? path)) ∧
      searchTag path (readTag s.found.length name attributes) children s = (tagOf name attributes,
        if holdsTextMarker (readTag s.found.length name attributes) children s' then
          s'.record .text path
        else s') := by
  have hnone : ∀ j, marker j ∉ ([] : List (String × String)).map Prod.fst := fun j hmem => by cases hmem
  have htaken := takeMarkers_readIn h.each hnone path s
  rw [List.nil_append, List.nil_append] at htaken
  refine ⟨_, htaken.2, ?_⟩
  rw [tagOf, ← htaken.1]
  rfl

theorem searchAll_textOf (path : List Nat) (k : Nat) (s : Search) (text : List Char) :
    searchAll path k s (textOf text) = (textOf text, s) := by
  cases text with
  | nil => rfl
  | cons c text => rfl

/-- The holes of a node are found where the node is if they are still to be found, and its content is left. -/
def Source.IsFound (node : Source) : Prop :=
  ∀ (path : List Nat) (s : Search), s.found.length + node.gaps ≤ s.expected →
    (searchTree path s (node.read s.found.length)).1 = node.content s.found.length ∧
      s.Finds (searchTree path s (node.read s.found.length)).2 (node.holes path)

/-- The holes of some nodes are found where the nodes are if they are still to be found, and their content is
left. -/
def AreFound (nodes : List Source) : Prop :=
  ∀ (path : List Nat) (k : Nat) (s : Search), s.found.length + gapsAll nodes ≤ s.expected →
    (searchAll path k s (readAll s.found.length nodes)).1 = contentAll s.found.length nodes ∧
      s.Finds (searchAll path k s (readAll s.found.length nodes)).2 (holesAll path k nodes)

/-- Once all holes have been found, there are none in the node. -/
theorem found_of_isDone (node : Source) (path : List Nat) (hs : s.isDone = true)
    (hexpected : s.found.length + node.gaps ≤ s.expected) :
    (searchTree path s (node.read s.found.length)).1 = node.content s.found.length ∧
      s.Finds (searchTree path s (node.read s.found.length)).2 (node.holes path) := by
  have hle : s.expected ≤ s.found.length := of_decide_eq_true hs
  have hgaps : node.gaps = 0 := by omega
  have hholes : node.holes path = [] :=
    List.length_eq_zero_iff.1 ((length_holes.1 node path).trans hgaps)
  rw [searchTree_of_isDone hs, read_eq_content.1 node _ hgaps, hholes]
  exact ⟨rfl, .refl s⟩

theorem isFound_comment {data : List Char} (h : ∀ i, data ≠ (marker i).toList) :
    (Source.comment data).IsFound := by
  intro path s _
  have hmarker : String.ofList data ≠ s.wanted := fun heq =>
    h _ (by rw [← String.toList_ofList (l := data), heq]; rfl)
  rw [Source.read, searchTree, beq_false_of_ne hmarker, Bool.and_false, if_neg Bool.false_ne_true]
  exact ⟨rfl, .refl s⟩

theorem isFound_hole : Source.hole.IsFound := by
  intro path s hexpected
  have hs : s.isDone = false := by
    have : s.found.length + 1 ≤ s.expected := hexpected
    exact decide_eq_false (by omega)
  rw [Source.read, searchTree, hs, show marker s.found.length = s.wanted from rfl, beq_self_eq_true]
  exact ⟨rfl, s.finds_record .child path⟩

theorem isFound_element {children : List Source} (hname : IsElementName name)
    (hplain : name ∉ ["style".toList, "textarea".toList]) (hattributes : AreWellFormed attributes)
    (hchildren : AreFound children) : (Source.element name attributes children).IsFound := by
  intro path s hexpected
  cases hs : s.isDone with
  | true => exact found_of_isDone _ path hs hexpected
  | false =>
    rw [Source.gaps] at hexpected
    obtain ⟨s', hfinds, htag⟩ := searchTag_readTag name hattributes path
      (readAll (s.found.length + gapsIn attributes) children) s
    have hnamed : (readTag s.found.length name attributes).name.toList = name := String.toList_ofList
    rw [holdsTextMarker_element (hnamed.symm ▸ hname) (hnamed.symm ▸ hplain),
      if_neg Bool.false_ne_true] at htag
    have hlength : s'.found.length = s.found.length + gapsIn attributes := by
      rw [hfinds.length, length_filterMap_hole?]
    have hinner := hchildren path 0 s' (by rw [hlength, hfinds.expected]; omega)
    rw [hlength] at hinner
    rw [Source.read, searchTree, hs, if_neg Bool.false_ne_true, htag]
    dsimp only
    rw [hinner.1]
    exact ⟨rfl, hfinds.trans hinner.2⟩

theorem isFound_raw {content : Option (List Char)} (hname : name ∈ ["style".toList, "textarea".toList])
    (hattributes : AreWellFormed attributes) (hcontent : ∀ text, content = some text → IsBare text) :
    (Source.raw name attributes content).IsFound := by
  intro path s hexpected
  cases hs : s.isDone with
  | true => exact found_of_isDone _ path hs hexpected
  | false =>
    cases content with
    | none =>
      obtain ⟨s', hfinds, htag⟩ := searchTag_readTag name hattributes path
        (textOf (markerComment (s.found.length + gapsIn attributes))) s
      have hlength : s'.found.length = s.found.length + gapsIn attributes := by
        rw [hfinds.length, length_filterMap_hole?]
      rw [holdsTextMarker_raw hname, trim_markerComment, hlength, beq_self_eq_true, if_pos rfl] at htag
      rw [Source.read, searchTree, hs, if_neg Bool.false_ne_true, htag]
      dsimp only
      rw [searchAll_textOf]
      exact ⟨rfl, hfinds.trans (s'.finds_record .text path)⟩
    | some text =>
      obtain ⟨s', hfinds, htag⟩ := searchTag_readTag name hattributes path (textOf text) s
      rw [holdsTextMarker_raw hname, beq_false_of_ne (trim_ne_markerComment (hcontent text rfl) _),
        if_neg Bool.false_ne_true] at htag
      rw [Source.read, searchTree, hs, if_neg Bool.false_ne_true, htag]
      dsimp only
      rw [searchAll_textOf]
      exact ⟨rfl, hfinds⟩

theorem areFound_cons {node : Source} {rest : List Source} (hnode : node.IsFound) (hrest : AreFound rest) :
    AreFound (node :: rest) := by
  intro path k s hexpected
  rw [gapsAll] at hexpected
  have hfirst := hnode (path ++ [k]) s (by omega)
  have hlength := hfirst.2.length
  rw [length_holes.1] at hlength
  have hothers := hrest path (k + 1) _ (by rw [hlength, hfirst.2.expected]; omega)
  rw [hlength] at hothers
  rw [readAll, searchAll]
  dsimp only
  rw [hfirst.1, hothers.1]
  exact ⟨rfl, hfirst.2.trans hothers.2⟩

/-- The holes of well-formed nodes are found where the nodes are, and their content is left. -/
theorem finds_source :
    (∀ node : Source, node.IsWellFormed → node.IsFound) ∧
      ∀ nodes : List Source, AreAllWellFormed nodes → AreFound nodes := by
  refine Source.induct ?_ ?_ ?_ ?_ ?_ ?_ ?_
  · intro written _ path s _
    exact ⟨rfl, .refl s⟩
  · intro data h
    exact isFound_comment h.2
  · intro _
    exact isFound_hole
  · intro name attributes children ih h
    obtain ⟨hname, hspecial, hattributes, -, hchildren⟩ := h
    refine isFound_element hname (fun hmem => hspecial ?_) hattributes (ih hchildren)
    exact List.mem_append_right ["svg".toList, "script".toList, "xmp".toList, "title".toList] hmem
  · intro name attributes content h
    exact isFound_raw h.1 h.2.1 fun text htext => (h.2.2 text htext).1
  · intro _ path k s _
    exact ⟨rfl, .refl s⟩
  · intro node rest ihnode ihrest h
    exact areFound_cons (ihnode h.1) (ihrest h.2.2)

/-- All holes of a well-formed template are found. -/
theorem compilation_ofSource {nodes : List Source} (h : AreTemplate nodes) (id : Nat) :
    ((ofSource id nodes).compilation .html).compiled = ⟨contentAll 0 nodes, holesAll [] 0 nodes⟩ ∧
      ((ofSource id nodes).compilation .html).isComplete = true := by
  obtain ⟨hcontent, -, hholes⟩ :=
    finds_source.2 nodes h.wellFormed [] 0 ⟨gapsAll nodes, []⟩ (Nat.zero_add _).le
  have hcompiled : ((ofSource id nodes).compilation .html).compiled
      = ⟨contentAll 0 nodes, holesAll [] 0 nodes⟩ := by
    rw [List.append_nil] at hholes
    rw [compilation, markHoles_ofSource h, parse_markedAll h.wellFormed, gaps_ofSource h.wellFormed]
    dsimp only [List.length_nil] at hcontent hholes ⊢
    rw [hcontent, hholes, List.reverse_reverse]
  refine ⟨hcompiled, decide_eq_true ?_⟩
  rw [hcompiled, length_holes.2, ← gaps_ofSource h.wellFormed id]
  exact Nat.le_refl _

/-- Compiling a well-formed template succeeds, whatever has been compiled before: its holes come out in
order with their kinds and places, and the content is what was written. -/
theorem compile_ofSource {c : Catalogue} (hc : c.Sound) {nodes : List Source} (h : AreTemplate nodes)
    (id : Nat) :
    (c.compile .html (ofSource id nodes)).1 = .ok ⟨contentAll 0 nodes, holesAll [] 0 nodes⟩ ∧
      (holesAll [] 0 nodes).length = (ofSource id nodes).gaps := by
  obtain ⟨hcompiled, hcomplete⟩ := compilation_ofSource h id
  obtain ⟨c', hcompile, -⟩ := Catalogue.compile_eq hc hcomplete
  rw [hcompile, hcompiled, length_holes.2, gaps_ofSource h.wellFormed]
  exact ⟨rfl, rfl⟩

/-- A template with holes of all kinds. -/
def variedNodes : List Source :=
  [.element "p".toList
    [.fixed "class".toList "a&amp;b".toList, .hole "title".toList .single, .hole ".x".toList .bare]
    [.text "x=".toList, .hole, .element "br".toList [] [], .comment "c".toList,
      .raw "textarea".toList [.hole "name".toList .double] none]]

theorem areTemplate_variedNodes : AreTemplate variedNodes := by
  have hname : ∀ name ∈ ["class".toList, "title".toList, ".x".toList, "name".toList],
      IsAttributeName name := by decide
  have helement : ∀ name ∈ ["p".toList, "br".toList], IsElementName name := by decide
  have hmarker : ∀ (i : Nat) (c : Char) (s : List Char), c ≠ 'i' → c :: s ≠ (marker i).toList := by
    intro i c s hc heq
    rw [toList_marker] at heq
    exact hc (List.cons.inj heq).1
  have hbare : ∀ s ∈ ["a&amp;b".toList, "x=".toList, "c".toList], IsBare s := by decide
  have hattributes : AreWellFormed
      [.fixed "class".toList "a&amp;b".toList, .hole "title".toList .single, .hole ".x".toList .bare] := by
    refine ⟨?_, by decide⟩
    rintro a (_ | ⟨_, _ | ⟨_, _ | ⟨_, ⟨⟩⟩⟩⟩)
    · exact ⟨hname _ (by decide), by decide, fun i => hmarker i _ _ (by decide), hbare _ (by decide),
        by decide⟩
    · exact hname _ (by decide)
    · exact hname _ (by decide)
  have hchildren : AreAllWellFormed [.text "x=".toList, .hole, .element "br".toList [] [],
      .comment "c".toList, .raw "textarea".toList [.hole "name".toList .double] none] := by
    refine ⟨⟨by decide, hbare _ (by decide)⟩, by decide, trivial, by decide,
      ⟨helement _ (by decide), by decide, ⟨by simp, by decide⟩, fun _ => rfl, trivial⟩, by decide,
      ⟨hbare _ (by decide), fun i => hmarker i _ _ (by decide)⟩, by decide,
      ⟨by decide, ⟨?_, by decide⟩, fun _ hs => by cases hs⟩, by decide, trivial⟩
    exact List.forall_mem_singleton.2 (hname _ (by decide))
  exact ⟨⟨⟨helement _ (by decide), by decide, hattributes, fun hv => absurd hv (by decide), hchildren⟩,
    fun ht => (by cases ht), trivial⟩, fun _ ht => (by cases ht), fun _ ht => (by cases ht)⟩

theorem compile_variedNodes :
    (ofSource 0 variedNodes).segments
        = ["<p class=\"a&amp;b\" title=\x27", "\x27 .x=", ">x=", "<br><!--c--><textarea name=\"", "\">",
          "</textarea></p>"] ∧
      (Catalogue.empty.compile .html (ofSource 0 variedNodes)).1 = .ok
        ⟨[.element ⟨"p", .html, [("class", "a&b")]⟩
            [.text "x=", .comment "isµ2", .element ⟨"br", .html, []⟩ [], .comment "c",
              .element ⟨"textarea", .html, []⟩ [.text "<!--isµ4-->"]]],
          [⟨.attr "title", [0]⟩, ⟨.attr ".x", [0]⟩, ⟨.child, [0, 1]⟩, ⟨.attr "name", [0, 4]⟩,
            ⟨.text, [0, 4]⟩]⟩ := by
  refine ⟨by decide, ?_⟩
  rw [(compile_ofSource Catalogue.sound_empty areTemplate_variedNodes 0).1]
  cbv

end LiveMarkup.Template
