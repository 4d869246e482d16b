import LiveMarkup.Proofs.Rendering.Planning
import LiveMarkup.Proofs.Template.Plainness
/-!
# How many values a template takes

A template takes as many values as holes have been found in it. Compiling fails if fewer are found than there
are gaps between its segments. More are found if the element of the last attribute is marked once more, and
then no use with one value for each gap is accepted; a plain template is never of that kind
(`compile_counts`).
-/

namespace LiveMarkup

open Template (markHoles)

namespace Catalogue

variable {c : Catalogue} {space : Markup.Namespace} {template : Template} {n : Nat}

/-- A compiled template takes as many values as it has holes. -/
theorem prepare_of_compile {compiled : Compiled} (h : (c.compile space template).1 = .ok compiled)
    (n : Nat) :
    (c.prepare space template n).1 =
      if compiled.holes.length = n then .ok compiled
      else .error (.valueCount compiled.holes.length n) := by
  rw [prepare]
  split
  · rename_i e _ heq
    rw [heq] at h
    cases h
  · rename_i made _ heq
    rw [heq] at h
    cases h
    split <;> rfl

theorem prepare_of_error {e : Failure} (h : (c.compile space template).1 = .error e) (n : Nat) :
    (c.prepare space template n).1 = .error e := by
  rw [prepare]
  split
  · rename_i heq
    rw [heq] at h
    exact h
  · rename_i heq
    rw [heq] at h
    cases h

end Catalogue

/-- Of a template with `n` gaps between its segments either a marker is lost, and compiling says how many were
found; or at least `n` holes are found. There are more of them if and only if the element of the last one is
marked once more, which is not so in a plain template. With `n` values a use is accepted if there are no more.
-/
theorem compile_counts {c : Catalogue} {space : Markup.Namespace} {template : Template} {n : Nat}
    (hc : c.Sound) (hn : template.segments.length = n + 1) :
    (∃ found < n,
      (c.compile space template).1 = .error (.markersLost (markHoles template.segments) n found) ∧
      (c.prepare space template n).1 = .error (.markersLost (markHoles template.segments) n found)) ∨
    ∃ compiled, (c.compile space template).1 = .ok compiled ∧
      n ≤ compiled.holes.length ∧
      (n < compiled.holes.length ↔ template.IsOvermarked space) ∧
      (template.IsPlain → compiled.holes.length = n) ∧
      (c.prepare space template n).1 =
        if compiled.holes.length = n then .ok compiled
        else .error (.valueCount compiled.holes.length n) := by
  have hgaps : template.gaps = n := by rw [Template.gaps, hn, Nat.add_sub_cancel]
  cases hcomplete : (template.compilation space).isComplete with
  | false =>
    have hcompile := Catalogue.compile_of_lost hc hcomplete
    rw [hgaps] at hcompile
    have hfew : (template.compilation space).compiled.holes.length < n := by
      rw [← hgaps]
      exact Nat.lt_of_not_le (of_decide_eq_false hcomplete)
    exact .inl ⟨_, hfew, hcompile, Catalogue.prepare_of_error hcompile n⟩
  | true =>
    obtain ⟨c', hcompile, -⟩ := Catalogue.compile_eq hc hcomplete
    have hok : (c.compile space template).1 = .ok (template.compilation space).compiled := by
      rw [hcompile]
    have henough : n ≤ (template.compilation space).compiled.holes.length := by
      rw [← hgaps]
      exact of_decide_eq_true hcomplete
    have hsurplus := Template.gaps_lt_length_iff space template
    rw [hgaps] at hsurplus
    refine .inr ⟨_, hok, henough, hsurplus, fun hplain => ?_, Catalogue.prepare_of_compile hok n⟩
    have hnot := mt hsurplus.1 (hplain.not_isOvermarked space)
    omega

/-- A template whose element is marked once more behind the last segment. -/
def overmarkedTemplate : Template :=
  ⟨0, ["<a x=", " y="]⟩

/-- A template with an attribute and a child, and nothing else that could be a marker. -/
def plainTemplate : Template :=
  ⟨1, ["<p title=", ">", "</p>"]⟩

theorem isPlain_plainTemplate : plainTemplate.IsPlain :=
  ⟨by decide, Template.endsUnmarked_of_getLast? (by decide)⟩

/-- A use of one of the templates with one value is turned down, a use of the other with two is accepted. -/
theorem compile_counts_overmarked :
    (overmarkedTemplate.IsOvermarked .html ∧
      (Catalogue.empty.prepare .html overmarkedTemplate 1).1 = .error (.valueCount 2 1)) ∧
    (Catalogue.empty.prepare .html plainTemplate 2).1
      = .ok (plainTemplate.compilation .html).compiled := by
  constructor
  · have hcomplete : (overmarkedTemplate.compilation .html).isComplete = true := by decide +kernel
    have htwo : (overmarkedTemplate.compilation .html).compiled.holes.length = 2 := by decide +kernel
    obtain ⟨c', hcompile, -⟩ := Catalogue.compile_eq Catalogue.sound_empty hcomplete
    rcases @compile_counts _ .html overmarkedTemplate 1 Catalogue.sound_empty rfl with
      ⟨found, -, herror, -⟩ | ⟨compiled, hok, -, hmore, -, hprepare⟩
    · rw [hcompile] at herror
      cases herror
    · rw [hcompile] at hok
      cases hok
      refine ⟨hmore.1 (by rw [htwo]; decide), ?_⟩
      rw [hprepare, htwo]
      rfl
  · have hcomplete : (plainTemplate.compilation .html).isComplete = true := by decide +kernel
    obtain ⟨c', hcompile, -⟩ := Catalogue.compile_eq Catalogue.sound_empty hcomplete
    rcases @compile_counts _ .html plainTemplate 2 Catalogue.sound_empty rfl with
      ⟨found, -, herror, -⟩ | ⟨compiled, hok, -, -, hplain, hprepare⟩
    · rw [hcompile] at herror
      cases herror
    · rw [hcompile] at hok
      cases hok
      rw [hprepare, if_pos (hplain isPlain_plainTemplate)]

end LiveMarkup
