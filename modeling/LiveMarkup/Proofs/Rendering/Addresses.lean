import LiveMarkup.Proofs.Document.Edits
import LiveMarkup.Proofs.Document.Parsing
import LiveMarkup.Proofs.Rendering.Creation
import LiveMarkup.Proofs.Rendering.Unrolling
/-!
# The holes of compiled content in a document

The path of a hole is found in the content of a template and used in a document later on, where it is
followed from a fragment that has this content. Wherever the fragment comes from, made from the content
or copied from another fragment with it, the path leads to a node that is what marked the hole
(`compile_addressed`). So every hole has a binding, and making an instance never fails.
-/

namespace LiveMarkup

open Markup (Tree)

variable {d : Document} {n r : NodeId} {i : Nat} {kind : HoleKind}

/-- A node is what hole `i` leads to: a comment that is its marker, an element that its marker attribute
has been taken off, or an element whose text is its marker comment. -/
def Document.Marks (d : Document) (n : NodeId) (i : Nat) : HoleKind → Prop
  | .child => d.kind n = .comment ∧ (d.node n).data = marker i
  | .attr _ => d.isElement n = true ∧ marker i ∉ (d.attributePairs n).map Prod.fst
  | .text =>
    d.isElement n = true ∧
      (Text.sameLetters (d.name n).toList "style".toList = true ∨
        Text.sameLetters (d.name n).toList "textarea".toList = true) ∧
      Text.trim (d.textContent n).toList = Template.markerComment i ∧
      marker i ∉ (d.attributePairs n).map Prod.fst

/-- A hole can be at a node if it can be at the tree that the node stands for. -/
theorem Document.Stands.marks {q : Plant} (hf : d.Forest) (h : d.Stands q) (hm : kind.Marks i q.tree) :
    d.Marks q.id i kind := by
  have hcontent := (h.bears hf).content hf
  cases h with
  | @element id tag children has nodeKind pairs row below =>
    have helement : d.isElement id = true := by rw [isElement, nodeKind]
    have hname : d.name id = tag.name := by rw [name, nodeKind]
    rw [Plant.tree] at hm
    cases kind with
    | child => cases hm
    | attr name =>
      refine ⟨helement, ?_⟩
      rw [Plant.id_element, pairs]
      exact hm
    | text =>
      obtain ⟨⟨hnamed, htext⟩, hgone⟩ := hm
      have hall : d.textContent id = Markup.textContentAll (Plant.trees children) := by
        rw [textContent, leaf?_of_isElement helement]
        exact congrArg Markup.textContentAll hcontent
      refine ⟨helement, ?_, ?_, ?_⟩
      · rw [Plant.id_element, hname]
        exact hnamed
      · rw [Plant.id_element, hall]
        exact htext
      · rw [Plant.id_element, pairs]
        exact hgone
  | text =>
    rw [Plant.tree] at hm
    cases kind <;> cases hm
  | @comment id data has nodeKind written =>
    rw [Plant.tree] at hm
    cases kind with
    | child => exact ⟨nodeKind, written.trans hm⟩
    | attr => cases hm
    | text => cases hm

/-- In a fragment with compiled content the path of each hole leads to the node that stands for what
marked it. -/
theorem Compiled.Addressed.descend? {compiled : Compiled} (h : compiled.Addressed) (hs : d.Sound)
    (hcontent : d.content r = compiled.content) {hole : Hole} (hi : compiled.holes[i]? = some hole)
    {t : Tree} (ht : Tree.follow compiled.content hole.path = some t) :
    ∃ n, d.descend? r hole.path = some n ∧ d.trees n = [t] ∧ d.Marks n i hole.kind := by
  obtain ⟨t', ht', hmarks⟩ := h.leads i hole hi
  obtain rfl : t = t' := Option.some.inj (ht.symm.trans ht')
  obtain ⟨ps, hps⟩ := Document.exists_bears hs.forest r
  rw [← hcontent, hps.content hs.forest, Plant.follow_trees, Option.map_eq_some_iff] at ht
  obtain ⟨q, hq, rfl⟩ := ht
  have hstands := hps.of_follow hq
  exact ⟨q.id, hps.descend? hs.forest hq, hstands.trees hs.forest, hstands.marks hs.forest hmarks⟩

theorem Document.has_of_isFragment (h : d.isFragment r = true) : d.Has r := by
  by_contra hr
  rw [isFragment, Document.kind, node_of_not_has hr] at h
  cases h

/-- If a template compiles, its holes are in document order, and each of them leads to what it was marked
by: in every fragment with the compiled content, and at the same place in every copy of it. So all holes of
a copy have bindings, and making an instance does not fail. -/
theorem compile_addressed {c : Catalogue} {space : Markup.Namespace} {template : Template}
    {compiled : Compiled} (hc : c.Sound) (h : (c.compile space template).1 = .ok compiled) :
    compiled.Addressed ∧
      (∀ (d : Document) (r : NodeId), d.Sound → d.isFragment r = true →
        d.content r = compiled.content →
        let copy := d.copyTree r
        (∀ (i : Nat) (hole : Hole), compiled.holes[i]? = some hole →
          ∃ n m t, Tree.follow compiled.content hole.path = some t ∧
            d.descend? r hole.path = some n ∧ d.trees n = [t] ∧ d.Marks n i hole.kind ∧
            copy.2.descend? copy.1 hole.path = some m ∧ copy.2.trees m = [t] ∧
            copy.2.Marks m i hole.kind) ∧
        (Binding.ofHoles? copy.2 copy.1 compiled.holes).isSome = true) ∧
      ∀ d : Document, (Instance.attempt d space template).run.run c
        = (.ok (Instance.create d space template compiled), (c.compile space template).2) := by
  have haddressed : compiled.Addressed := by
    rw [(Catalogue.eq_of_compile hc h).2]
    exact template.addressed_compilation space
  refine ⟨haddressed, fun d r hs hr hcontent => ?_, fun d => ?_⟩
  · intro copy
    have hhas := Document.has_of_isFragment hr
    have hcopied : copy.2.Sound := hs.copyTree hhas
    have hsame : copy.2.content copy.1 = compiled.content :=
      (Document.content_copyTree hs hhas).trans hcontent
    have hleads : copy.2.Leads copy.1 compiled.holes := by
      intro hole hmem
      obtain ⟨i, hi⟩ := List.getElem?_of_mem hmem
      obtain ⟨t, ht, -⟩ := haddressed.leads i hole hi
      obtain ⟨n, hn, -⟩ := haddressed.descend? hcopied hsame hi ht
      exact ⟨n, hn⟩
    refine ⟨fun i hole hi => ?_, ?_⟩
    · obtain ⟨t, ht, -⟩ := haddressed.leads i hole hi
      obtain ⟨n, hn, htree, hmarks⟩ := haddressed.descend? hs hcontent hi ht
      obtain ⟨m, hm, htree', hmarks'⟩ := haddressed.descend? hcopied hsame hi ht
      exact ⟨n, m, t, ht, hn, htree, hmarks, hm, htree', hmarks'⟩
    · rw [Binding.ofHoles?_eq hleads]
      rfl
  · exact Instance.run_attempt hc (Prod.ext h rfl) d

/-- A template with an attribute, a child and a text to fill. -/
def mixedTemplate : Template :=
  ⟨0, ["<p title=", ">", "</p><textarea>", "</textarea>"]⟩

/-- In a copy of the content the comment is at the place of the second hole. -/
theorem compile_mixedTemplate :
    let compiled := (mixedTemplate.compilation .html).compiled
    let made := Document.empty.createFragment compiled.content
    let copy := made.2.copyTree made.1
    (Catalogue.empty.compile .html mixedTemplate).1 = .ok compiled ∧
      compiled.holes = [⟨.attr "title", [0]⟩, ⟨.child, [0, 0]⟩, ⟨.text, [1]⟩] ∧
      (∃ m, copy.2.descend? copy.1 [0, 0] = some m ∧ copy.2.kind m = .comment ∧
        (copy.2.node m).data = marker 1) ∧
      (Binding.ofHoles? copy.2 copy.1 compiled.holes).isSome = true := by
  intro compiled made copy
  have hcomplete : (mixedTemplate.compilation .html).isComplete = true := by decide +kernel
  have hholes : compiled.holes = [⟨.attr "title", [0]⟩, ⟨.child, [0, 0]⟩, ⟨.text, [1]⟩] := by
    decide +kernel
  obtain ⟨c', hcompile, -⟩ := Catalogue.compile_eq Catalogue.sound_empty hcomplete
  have h : (Catalogue.empty.compile .html mixedTemplate).1 = .ok compiled := by rw [hcompile]
  obtain ⟨hsound, hfragment, hcontent⟩ :=
    Document.created_fragment Document.sound_empty compiled.content
  obtain ⟨hleads, hbound⟩ :=
    (compile_addressed Catalogue.sound_empty h).2.1 _ _ hsound hfragment hcontent
  obtain ⟨-, m, -, -, -, -, -, hm, -, hmarks⟩ := hleads 1 ⟨.child, [0, 0]⟩ (by rw [hholes]; rfl)
  exact ⟨h, hholes, ⟨m, hm, hmarks⟩, hbound⟩

end LiveMarkup
