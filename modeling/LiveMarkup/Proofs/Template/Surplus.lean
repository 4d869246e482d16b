import LiveMarkup.Proofs.Template.Holes
import LiveMarkup.Proofs.Template.Reading
/-!
# Holes beyond the expected ones

The search asks once for each node whether enough holes have been found. At an element it then takes all
marker attributes that follow one another and looks at the text after them, so it may find more holes than
the template has. That happens in one way only: the last hole expected is an attribute, and its element is
marked for the hole behind it as well (`gaps_lt_length_iff`).
-/

namespace LiveMarkup

open Markup (Tree Tag)

/-- A tree that hole `i` is an attribute of is marked for the hole behind it too: by another attribute, or
by its text. -/
def HoleKind.Overmarks (i : Nat) : HoleKind → Tree → Prop
  | attr _, .element tag children =>
    marker (i + 1) ∈ tag.attributes.map Prod.fst ∨ Template.IsTextMarker (i + 1) tag children
  | _, _ => False

namespace Template

variable {path : List Nat} {attributes : List (String × String)} {s : Search} {tag : Tag}
  {children : List Tree}

/-- Once the last hole that is expected has been found, the search is done. -/
theorem Search.Finds.isDone {s' : Search} {holes : List Hole} {e : Hole × Nat} (h : s.Finds s' holes)
    (he : e ∈ holes.zipIdx s.found.length) (hlast : e.2 + 1 = s.expected) : s'.isDone = true := by
  have hlt := List.snd_lt_add_of_mem_zipIdx he
  have hlength := h.length
  rw [Search.isDone, h.expected, decide_eq_true_iff]
  omega

/-- The markers that are taken off an element are those from the wanted one up to the first that the
element does not have. -/
theorem mem_of_takeMarkers (path : List Nat) (attributes : List (String × String)) (s : Search) :
    s.found.length ≤ (takeMarkers path attributes s).2.found.length ∧
      (∀ k, s.found.length ≤ k → k < (takeMarkers path attributes s).2.found.length →
        marker k ∈ attributes.map Prod.fst) ∧
      (takeMarkers path attributes s).2.wanted ∉ attributes.map Prod.fst := by
  fun_induction takeMarkers path attributes s with
  | case1 attributes s found hfound ih =>
    obtain ⟨hle, hbefore, hfirst⟩ := ih
    have hmem := List.mem_of_find?_eq_some hfound
    have hwanted : found.1 = s.wanted := by simpa using List.find?_some hfound
    have hlt : s.found.length < (takeMarkers path (attributes.erase found)
        (s.record (.attr found.2) path)).2.found.length := hle
    refine ⟨hlt.le, fun k hk hk' => ?_, fun hlater => ?_⟩
    · rcases Nat.eq_or_lt_of_le hk with rfl | hk
      · exact List.mem_map.2 ⟨found, hmem, hwanted⟩
      · exact List.map_subset _ List.erase_subset (hbefore k hk hk')
    · obtain ⟨a, ha, hname⟩ := List.mem_map.1 hlater
      have hne : a ≠ found := by
        rintro rfl
        have := marker_injective (hname.symm.trans hwanted)
        omega
      exact hfirst (List.mem_map.2 ⟨a, (List.mem_erase_of_ne hne).2 ha, hname⟩)
  | case2 attributes s hnone =>
    refine ⟨Nat.le_refl _, fun k hk hk' => absurd hk' (Nat.not_lt.2 hk), fun hmem => ?_⟩
    obtain ⟨a, ha, hname⟩ := List.mem_map.1 hmem
    exact List.find?_eq_none.1 hnone a ha (by simpa using hname)

theorem marker_mem_iff {k : Nat} (hk : s.found.length ≤ k)
    (hk' : k ≤ (takeMarkers path attributes s).2.found.length) :
    marker k ∈ attributes.map Prod.fst ↔ k < (takeMarkers path attributes s).2.found.length := by
  obtain ⟨-, hbefore, hfirst⟩ := mem_of_takeMarkers path attributes s
  refine ⟨fun hmem => Nat.lt_of_le_of_ne hk' fun heq => hfirst ?_, hbefore k hk⟩
  rwa [Search.wanted, ← heq]

/-- At a start tag more holes than expected are found if the last one expected is an attribute there and
the element is marked for the next one. -/
theorem expected_lt_searchTag (path : List Nat) (children : List Tree) (s : Search)
    (hnodup : (tag.attributes.map Prod.fst).Nodup) :
    ∃ holes, s.Finds (searchTag path tag children s).2 holes ∧
      ∀ e ∈ holes.zipIdx s.found.length, e.1.path = path ∧ (e.2 + 1 = s.expected →
        (s.expected < (searchTag path tag children s).2.found.length ↔
          e.1.kind.Overmarks e.2 (.element tag children))) := by
  obtain ⟨holes, hfinds, -, -, hall⟩ := finds_takeMarkers path s hnodup
  have hlength := hfinds.length
  by_cases htext : holdsTextMarker tag children (takeMarkers path tag.attributes s).2 = true
  · have hfound : (searchTag path tag children s).2
        = (takeMarkers path tag.attributes s).2.record .text path := if_pos htext
    have hbehind : (searchTag path tag children s).2.found.length
        = (takeMarkers path tag.attributes s).2.found.length + 1 := by rw [hfound]; rfl
    refine ⟨holes ++ [⟨.text, path⟩], ?_, fun e he => ?_⟩
    · rw [hfound]
      exact hfinds.trans (Search.finds_record _ _ _)
    rw [hfinds.zipIdx_append, List.mem_append] at he
    rcases he with he | he
    · obtain ⟨hpath, ⟨name, hkind⟩, -⟩ := hall e he
      have hle := List.le_snd_of_mem_zipIdx he
      have hlt := List.snd_lt_add_of_mem_zipIdx he
      refine ⟨hpath, fun hlast => iff_of_true (by omega) ?_⟩
      have hreached : s.expected ≤ (takeMarkers path tag.attributes s).2.found.length := by omega
      rw [hkind, HoleKind.Overmarks, hlast, marker_mem_iff (by omega) hreached]
      refine hreached.lt_or_eq.imp_right fun heq => ?_
      rw [heq]
      exact holdsTextMarker_iff.1 htext
    · rw [List.zipIdx_singleton, List.mem_singleton] at he
      rw [he]
      exact ⟨rfl, fun hlast => iff_of_false (by omega) not_false⟩
  · have hfound : (searchTag path tag children s).2 = (takeMarkers path tag.attributes s).2 :=
      if_neg htext
    refine ⟨holes, by rw [hfound]; exact hfinds, fun e he => ?_⟩
    obtain ⟨hpath, ⟨name, hkind⟩, -⟩ := hall e he
    have hle := List.le_snd_of_mem_zipIdx he
    have hlt := List.snd_lt_add_of_mem_zipIdx he
    refine ⟨hpath, fun hlast => ?_⟩
    have hreached : s.expected ≤ (takeMarkers path tag.attributes s).2.found.length := by omega
    rw [hkind, HoleKind.Overmarks, hlast, hfound, marker_mem_iff (by omega) hreached]
    refine ⟨.inl, fun h => h.elim (fun hlt => hlt) fun hmark => ?_⟩
    apply hreached.lt_of_ne
    intro heq
    rw [heq] at hmark
    exact htext (holdsTextMarker_iff.2 hmark)

/-- In some trees more holes than expected are found if the last one expected is an attribute of an element
that is marked for the next one. -/
theorem expected_lt_search :
    (∀ (t : Tree) (space : Markup.Namespace) (path : List Nat) (s : Search), t.IsRegular space →
      ∃ holes, s.Finds (searchTree path s t).2 holes ∧
        ∀ e ∈ holes.zipIdx s.found.length, ∃ ρ t', e.1.path = path ++ ρ ∧ t.at? ρ = some t' ∧
          (e.2 + 1 = s.expected →
            (s.expected < (searchTree path s t).2.found.length ↔ e.1.kind.Overmarks e.2 t'))) ∧
    ∀ (ts : List Tree) (space : Markup.Namespace) (path : List Nat) (i : Nat) (s : Search),
      Markup.EachIsRegular space ts →
      ∃ holes, s.Finds (searchAll path i s ts).2 holes ∧
        ∀ e ∈ holes.zipIdx s.found.length, ∃ j ρ t', e.1.path = path ++ (i + j) :: ρ ∧
          Tree.follow ts (j :: ρ) = some t' ∧
          (e.2 + 1 = s.expected →
            (s.expected < (searchAll path i s ts).2.found.length ↔ e.1.kind.Overmarks e.2 t')) := by
  refine Markup.Tree.induct ?_ ?_ ?_ ?_ ?_
  · intro tag children ih space path s hregular
    rw [Markup.Tree.IsRegular] at hregular
    rw [searchTree]
    split
    · exact ⟨[], .refl s, fun e he => by cases he⟩
    · obtain ⟨outer, houter, hall⟩ := expected_lt_searchTag path children s hregular.1.nodup
      obtain ⟨inner, hinner, hall'⟩ :=
        ih tag.contentSpace path 0 (searchTag path tag children s).2 hregular.2.2.2
      refine ⟨outer ++ inner, houter.trans hinner, fun e he => ?_⟩
      rw [houter.zipIdx_append, List.mem_append] at he
      dsimp only
      rcases he with he | he
      · obtain ⟨hpath, hlast⟩ := hall e he
        refine ⟨[], _, by rw [hpath, List.append_nil], rfl, fun h => ?_⟩
        -- the last hole expected is at the start tag, so nothing is looked for below
        rw [searchAll_of_isDone (houter.isDone he h)]
        exact hlast h
      · obtain ⟨j, ρ, t', hpath, hfollow, hlast⟩ := hall' e he
        rw [Nat.zero_add] at hpath
        rw [houter.expected] at hlast
        exact ⟨j :: ρ, t', hpath, hfollow, hlast⟩
  · intro data space path s _
    rw [searchTree]
    exact ⟨[], .refl s, fun e he => by cases he⟩
  · intro data space path s _
    rw [searchTree]
    dsimp only
    split
    · refine ⟨[⟨.child, path⟩], s.finds_record _ _, fun e he => ?_⟩
      rw [List.zipIdx_singleton, List.mem_singleton] at he
      rw [he]
      refine ⟨[], _, (List.append_nil _).symm, rfl, fun h => iff_of_false (fun hlt => ?_) not_false⟩
      have hlength := (s.finds_record .child path).length
      rw [List.length_singleton] at hlength
      omega
    · exact ⟨[], .refl s, fun e he => by cases he⟩
  · intro space path i s _
    rw [searchAll]
    exact ⟨[], .refl s, fun e he => by cases he⟩
  · intro t ts iht ihts space path i s hregular
    rw [Markup.EachIsRegular] at hregular
    obtain ⟨first, hfirst, hall⟩ := iht space (path ++ [i]) s hregular.1
    obtain ⟨rest, hrest, hall'⟩ :=
      ihts space path (i + 1) (searchTree (path ++ [i]) s t).2 hregular.2
    rw [searchAll]
    refine ⟨first ++ rest, hfirst.trans hrest, fun e he => ?_⟩
    rw [hfirst.zipIdx_append, List.mem_append] at he
    dsimp only
    rcases he with he | he
    · obtain ⟨ρ, t', hpath, hat, hlast⟩ := hall e he
      refine ⟨0, ρ, t', by rw [hpath, List.append_assoc]; rfl, hat, fun h => ?_⟩
      rw [searchAll_of_isDone (hfirst.isDone he h)]
      exact hlast h
    · obtain ⟨j, ρ, t', hpath, hfollow, hlast⟩ := hall' e he
      rw [hfirst.expected] at hlast
      refine ⟨j + 1, ρ, t', ?_, hfollow, hlast⟩
      rw [hpath, show i + 1 + j = i + (j + 1) by omega]

/-- The last hole that a template should have is an attribute of an element that is marked for one hole
more. -/
def IsOvermarked (space : Markup.Namespace) (template : Template) : Prop :=
  ∃ i hole t, i + 1 = template.gaps ∧
    (template.compilation space).compiled.holes[i]? = some hole ∧
    Tree.follow (Markup.parse space (markHoles template.segments)) hole.path = some t ∧
    hole.kind.Overmarks i t

/-- A template gets more holes than it should have if and only if it is overmarked. -/
theorem gaps_lt_length_iff (space : Markup.Namespace) (template : Template) :
    template.gaps < (template.compilation space).compiled.holes.length ↔
      template.IsOvermarked space := by
  have hregular := (Markup.areRegular_parse space (markHoles template.segments)).each
  obtain ⟨holes, hfinds, hall⟩ := expected_lt_search.2 _ space [] 0 ⟨template.gaps, []⟩ hregular
  have hholes : (template.compilation space).compiled.holes = holes := by
    rw [compilation]
    dsimp only
    rw [hfinds.found, List.append_nil, List.reverse_reverse]
  have hlength := hfinds.length
  rw [List.length_nil, Nat.zero_add] at hlength
  constructor
  · intro hlt
    rw [hholes] at hlt
    rcases Nat.eq_zero_or_eq_succ_pred template.gaps with hgaps | hgaps
    · -- with no hole to look for, nothing is looked at
      have hdone : Search.isDone ⟨template.gaps, []⟩ = true := by rw [hgaps]; rfl
      rw [searchAll_of_isDone hdone, List.length_nil] at hlength
      omega
    · have hi : template.gaps.pred < holes.length := by omega
      obtain ⟨j, ρ, t, hpath, hfollow, hlast⟩ := hall (holes[template.gaps.pred], template.gaps.pred)
        (List.mk_mem_zipIdx_iff_getElem?.2 (List.getElem?_eq_getElem hi))
      rw [List.nil_append, Nat.zero_add] at hpath
      refine ⟨template.gaps.pred, _, t, hgaps.symm, ?_, ?_, (hlast hgaps.symm).1 ?_⟩
      · rw [hholes]
        exact List.getElem?_eq_getElem hi
      · rw [hpath]
        exact hfollow
      · rw [hlength]
        exact hlt
  · rintro ⟨i, hole, t, hi, hhole, hfollow, hover⟩
    rw [hholes] at hhole ⊢
    obtain ⟨j, ρ, t', hpath, hfollow', hlast⟩ := hall (hole, i) (List.mk_mem_zipIdx_iff_getElem?.2 hhole)
    rw [List.nil_append, Nat.zero_add] at hpath
    rw [hpath, hfollow'] at hfollow
    obtain rfl := Option.some.inj hfollow
    rw [← hlength]
    exact (hlast hi).2 hover

end Template

end LiveMarkup
