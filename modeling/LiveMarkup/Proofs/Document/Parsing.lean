import LiveMarkup.Proofs.Document.Standing
import LiveMarkup.Proofs.Markup.Regularity
import LiveMarkup.Proofs.Markup.Rereading
/-!
# Fragments and their markup

Reading markup into a document makes a fragment with the trees that were read as its content, and writing a
fragment down writes these trees. So a fragment with canonical content can be written and read back
(`content_parse_innerMarkup`). What has been read is canonical but for raw text: only the whole name ends a
raw text element that has been opened, but a longer name that begins with it ends the text, so there can be
more in such an element than it is written to have. Otherwise what has been read is the same when it is
written and read again (`parse_innerMarkup_parse`).
-/

namespace LiveMarkup.Document

open Markup (Tree AreCanonical)

variable {d : Document} {n : NodeId} {space : Markup.Namespace}

/-- A new fragment has the content that it was made from. -/
theorem created_fragment (hs : d.Sound) (content : List Tree) :
    (d.createFragment content).2.Sound ∧
      (d.createFragment content).2.isFragment (d.createFragment content).1 = true ∧
      (d.createFragment content).2.content (d.createFragment content).1 = content := by
  have hmade := made_create hs .fragment ""
  have hkind : (d.create .fragment "").2.kind (d.create .fragment "").1 = .fragment := kind_create_next
  have hadded := added_addContent hmade.sound hmade.has (by rw [leaf?, hkind]) content
  refine ⟨hadded.sound, ?_, ?_⟩
  · rw [isFragment, createFragment, hadded.extends_.kind hmade.has, hkind]
    rfl
  · have hrow := hadded.row
    rw [hmade.children, List.nil_append] at hrow
    have hbears : (d.createFragment content).2.Bears (some (d.createFragment content).1)
        (plantAll (d.create .fragment "").2.nodes.size content) :=
      ⟨fun p hp => by cases hp; exact hrow, hadded.stand⟩
    exact (hbears.content hadded.sound.forest).trans (Plant.tree_plant.2 content _)

theorem innerMarkup_of_isFragment (h : d.isFragment n = true) :
    d.innerMarkup n = Markup.print (d.content n) := by
  have hkind : d.kind n = .fragment := by simpa [isFragment] using h
  rw [innerMarkup, isVerbatim, tag?, hkind]
  rfl

/-- Reading markup makes a fragment with the trees that are read. -/
theorem parsed_fragment (hs : d.Sound) (space : Markup.Namespace) (markup : String) :
    (d.parse space markup).2.Sound ∧
      (d.parse space markup).2.isFragment (d.parse space markup).1 = true ∧
      (d.parse space markup).2.content (d.parse space markup).1 = Markup.parse space markup :=
  created_fragment hs _

/-- A fragment with canonical content is written down and read back. -/
theorem reread (hs : d.Sound) (hn : d.isFragment n = true) (hcanonical : AreCanonical space (d.content n)) :
    (d.parse space (d.innerMarkup n)).2.isFragment (d.parse space (d.innerMarkup n)).1 = true ∧
      (d.parse space (d.innerMarkup n)).2.content (d.parse space (d.innerMarkup n)).1 = d.content n ∧
      (d.parse space (d.innerMarkup n)).2.innerMarkup (d.parse space (d.innerMarkup n)).1
        = d.innerMarkup n := by
  have hread : Markup.parse space (d.innerMarkup n) = d.content n := by
    rw [innerMarkup_of_isFragment hn, Markup.parse_print hcanonical]
  obtain ⟨-, hfragment, hcontent⟩ := parsed_fragment hs space (d.innerMarkup n)
  rw [hread] at hcontent
  refine ⟨hfragment, hcontent, ?_⟩
  rw [innerMarkup_of_isFragment hfragment, hcontent, innerMarkup_of_isFragment hn]

/-- Reading the markup of a fragment with canonical content makes a fragment with the same content. -/
theorem content_parse_innerMarkup (hs : d.Sound) (hn : d.isFragment n = true)
    (hcanonical : AreCanonical space (d.content n)) :
    let parsed := d.parse space (d.innerMarkup n)
    parsed.2.isFragment parsed.1 = true ∧ parsed.2.content parsed.1 = d.content n := by
  obtain ⟨hfragment, hcontent, -⟩ := reread hs hn hcanonical
  exact ⟨hfragment, hcontent⟩

/-- Content with something of all that is written in a way of its own. -/
def variedContent : List Tree :=
  [.element ⟨"p", .html, [("title", "\"1 < 2\" & more")]⟩ [.text "1 < 2 & more\u00a0", .comment "a->b--"],
    .element ⟨"script", .html, []⟩ [.text "a < b && c == \"</scr\""],
    .element ⟨"textarea", .html, []⟩ [.text "</textarea>"],
    .element ⟨"SVG", .svg, [("viewBox", "")]⟩
      [.element ⟨"foreignObject", .svg, []⟩ [.element ⟨"br", .html, []⟩ []], .text "end"]]

theorem parse_variedContent :
    let made := Document.empty.createFragment variedContent
    let parsed := made.2.parse .html (made.2.innerMarkup made.1)
    AreCanonical .html variedContent ∧ parsed.2.isFragment parsed.1 = true ∧
      parsed.2.content parsed.1 = variedContent := by
  have hcanonical : AreCanonical .html variedContent := by decide
  obtain ⟨hs, hfragment, hcontent⟩ := created_fragment sound_empty variedContent
  have hread := content_parse_innerMarkup hs hfragment (hcontent.symm ▸ hcanonical)
  rw [hcontent] at hread
  exact ⟨hcanonical, hread⟩

/-- Reading markup, writing it down and reading it again gives what was read first, if the elements whose
content is not read as markup hold what they can be written to hold. -/
theorem parse_innerMarkup_parse (hs : d.Sound) (space : Markup.Namespace) (markup : String)
    (hkeeps : Markup.eachKeepsRawText (Markup.parse space markup) = true) :
    let first := d.parse space markup
    let again := first.2.parse space (first.2.innerMarkup first.1)
    again.2.content again.1 = first.2.content first.1 ∧
      again.2.innerMarkup again.1 = first.2.innerMarkup first.1 := by
  obtain ⟨hsound, hfragment, hcontent⟩ := parsed_fragment hs space markup
  have hcanonical : AreCanonical space ((d.parse space markup).2.content (d.parse space markup).1) := by
    rw [hcontent]
    exact ⟨Markup.areRegular_parse space markup, hkeeps⟩
  exact (reread hsound hfragment hcanonical).2

/-- Markup with tags that do not match, attributes that come twice and comments that end early. -/
def malformedMarkup : String :=
  "<P id=1 ID='2'>a<br>b</i><!--c--!><SCRIPT>1 < 2</SCRIPT x>&lt;</p></p><svg><a/b>"

theorem parse_malformed :
    Markup.eachKeepsRawText (Markup.parse .html malformedMarkup) = true ∧
      let first := Document.empty.parse .html malformedMarkup
      let again := first.2.parse .html (first.2.innerMarkup first.1)
      again.2.content again.1 = first.2.content first.1 ∧
        again.2.innerMarkup again.1 = first.2.innerMarkup first.1 := by
  have hkeeps : Markup.eachKeepsRawText (Markup.parse .html malformedMarkup) = true := by decide +kernel
  exact ⟨hkeeps, parse_innerMarkup_parse sound_empty .html malformedMarkup hkeeps⟩

end LiveMarkup.Document
