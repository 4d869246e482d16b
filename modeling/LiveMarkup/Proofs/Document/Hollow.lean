import LiveMarkup.Proofs.Document.Attributes
import LiveMarkup.Proofs.Document.Leftovers
/-!
# Blocks without nodes

A group can be without nodes. It stands nowhere, and whatever its node is wanted for, its fragment is given,
which is no child of the container. So such an entry cannot be taken out of the old list like others
(`Block.isHollow`): to remove it is refused, which is noted as an error but does no harm, and to put another
entry in its place is refused as well, and then that entry is missing.

A pass deals with the other entries as if the hollow ones were not there (`Pass.solid`), although not always by
the same steps. Each hollow entry makes one error (`Pass.Firm`). A hollow entry is replaced only if it is the
last old one and one new entry is left, and that one is forfeited (`Pass.forfeited`). Otherwise all is as without
the hollow entries (`reconcile_hollow`).
-/

namespace LiveMarkup

open Document

/-- A group without nodes. -/
def Block.isHollow : Block → Bool
  | single _ => false
  | group g => g.members.isEmpty

theorem Document.Holds.not_hollow {d : Document} {e : Block} {span : List NodeId} (h : d.Holds e span) :
    e.isHollow = false := by
  cases e with
  | single n => rfl
  | group g =>
    have hmembers : g.members ≠ [] := h.spans.1
    simpa [Block.isHollow] using hmembers

/-! ### Documents with other notices -/

namespace Document

variable {d d' : Document} {e : Block} {notices : List Notice} {n a : NodeId}

/-- The document with some notices in place of those that it has. -/
def withNotices (d : Document) (notices : List Notice) : Document :=
  { d with notices }

theorem relinked_withNotices (d : Document) (notices : List Notice) : Relinked d (d.withNotices notices) :=
  ⟨rfl, fun _ => rfl, rfl, rfl, rfl⟩

theorem above_withNotices : (d.withNotices notices).Above n a ↔ d.Above n a := by
  have hparent (m : NodeId) : (d.withNotices notices).parent? m = d.parent? m := rfl
  exact ⟨fun h => h.congr fun m _ => hparent m, fun h => h.congr fun m _ => (hparent m).symm⟩

theorem Forest.withNotices (hf : d.Forest) (notices : List Notice) : (d.withNotices notices).Forest :=
  hf.congr (fun _ => rfl) (fun _ => rfl) fun _ _ => rfl

/-- Some errors have been noted. -/
def Complains (d d' : Document) (count : Nat) : Prop :=
  ∃ errors, d'.notices = errors ++ d.notices ∧ errors.length = count ∧ ∀ x ∈ errors, x.isError = true

theorem Complains.refl (d : Document) : d.Complains d 0 :=
  ⟨[], rfl, rfl, fun _ hx => by cases hx⟩

theorem Complains.of_eq (h : d'.notices = d.notices) : d.Complains d' 0 :=
  ⟨[], h, rfl, fun _ hx => by cases hx⟩

theorem complains_note (d : Document) {notice : Notice} (h : notice.isError = true) :
    d.Complains (d.note notice) 1 :=
  ⟨[notice], rfl, rfl, fun _ hx => List.mem_singleton.1 hx ▸ h⟩

theorem Complains.trans {d'' : Document} {k l : Nat} (h : d.Complains d' k) (h' : d'.Complains d'' l) :
    d.Complains d'' (l + k) := by
  obtain ⟨errors, hnotices, rfl, herrors⟩ := h
  obtain ⟨errors', hnotices', rfl, herrors'⟩ := h'
  refine ⟨errors' ++ errors, ?_, List.length_append, ?_⟩
  · rw [hnotices', hnotices, List.append_assoc]
  · intro x hx
    exact (List.mem_append.1 hx).elim (herrors' x) (herrors x)

end Document

/-- The stage with other notices in its document. -/
def Stage.withNotices (S : Stage) (notices : List Notice) : Stage where
  origin := S.origin.withNotices notices
  container := S.container
  blocks := S.blocks
  span := S.span
  ahead := S.ahead
  behind := S.behind
  has_container := S.has_container
  inner_container := S.inner_container
  holds_origin e he := (S.holds_origin e he).relinked (relinked_withNotices S.origin notices)
  apart := S.apart
  outside := S.outside
  clear_origin e he n hn ha := S.clear_origin e he n hn (above_withNotices.1 ha)

theorem Stage.Shows.withNotices {S : Stage} {d : Document} {cut live : List Block} (h : S.Shows d cut live)
    (notices : List Notice) : (S.withNotices notices).Shows (d.withNotices notices) cut live where
  origin_forest := h.origin_forest.withNotices notices
  since := ⟨h.forest.withNotices notices, ⟨h.since.relinked.size, h.since.relinked.bare, h.since.relinked.attributes,
    h.since.relinked.groups, h.since.relinked.cells⟩, h.since.children, rfl⟩
  live_mem := h.live_mem
  children := h.children
  kept := h.kept
  stowed e he hlive := ⟨(h.stowed e he hlive).absent, (h.stowed e he hlive).ready⟩

namespace Pass

variable {S : Stage} {s s' : Pass Block} {e o n : Block} {os ns live : List Block} {count : Nat}

/-- The pass without the hollow ones among its old entries. -/
def solid (s : Pass Block) : Pass Block :=
  { s with old := s.old.filter fun e => !e.isHollow }

/-- Without the hollow entries the pass is sound. For each of them that has been dealt with there is an error.
-/
structure Firm (S : Stage) (total : Nat) (s : Pass Block) : Prop where
  sound : s.solid.Sound (S.withNotices s.document.notices)
  fragments : ∀ e ∈ s.old, e.isHollow = true → ∀ f ∈ e.fragments, S.origin.isFragment f = true
  errors : ∃ done, S.origin.Complains s.document done ∧ done + s.old.countP Block.isHollow = total

/-- Removing a hollow entry is refused. -/
theorem remove_hollow (hf : s.document.Forest) (he : e.isHollow = true)
    (hfragment : ∀ f ∈ e.fragments, s.document.isFragment f = true) :
    ∃ notice, notice.isError = true ∧ (s.remove S.site e).document = s.document.note notice := by
  cases e with
  | single n => cases he
  | group g =>
    have hmembers : g.members = [] := List.isEmpty_iff.1 he
    have haccess : s.document.access (.group g) .remove = (g.fragment, s.document) := by
      rw [access, Group.first, collectTail, hmembers]
      rfl
    have hroot : s.document.parent? g.fragment ≠ some S.container := fun hp => by
      have hsolid := hf.solid hp
      rw [hfragment g.fragment (List.mem_singleton_self _)] at hsolid
      cases hsolid
    refine ⟨.notAChild (s.document.sketch g.fragment) (s.document.sketch S.container), rfl, ?_⟩
    show (s.document.access (.group g) .remove).2.removeChild S.container
      (s.document.access (.group g) .remove).1 = _
    rw [haccess, removeChild, if_neg hroot]

/-- Putting an entry in the place of a hollow one is refused when it has been collected. -/
theorem replace_hollow (hf : (s.document.access n .insert).2.Forest) (ho : o.isHollow = true)
    (hfragment : ∀ f ∈ o.fragments, (s.document.access n .insert).2.isFragment f = true) :
    ∃ notice, notice.isError = true ∧
      (s.replace S.site n o).document = (s.document.access n .insert).2.note notice := by
  cases o with
  | single n => cases ho
  | group g =>
    have hmembers : g.members = [] := List.isEmpty_iff.1 ho
    generalize hcollected : (s.document.access n .insert).2 = d at hf hfragment
    have haccess : d.access (.group g) .remove = (g.fragment, d) := by
      rw [access, Group.first, collectTail, hmembers]
      rfl
    have hroot : d.parent? g.fragment ≠ some S.container := fun hp => by
      have hsolid := hf.solid hp
      rw [hfragment g.fragment (List.mem_singleton_self _)] at hsolid
      cases hsolid
    refine ⟨.replacedNotAChild (d.sketch g.fragment) (d.sketch S.container), rfl, ?_⟩
    show ((s.document.access n .insert).2.access (.group g) .remove).2.replaceChild S.container _
      ((s.document.access n .insert).2.access (.group g) .remove).1 = _
    rw [hcollected, haccess, replaceChild, if_neg hroot]

namespace Firm

variable {total : Nat}

theorem not_hollow_of_target (h : s.Firm S total) (he : e ∈ s.target) : e.isHollow = false :=
  (S.holds_origin e (h.sound.target_mem e he)).not_hollow

theorem not_hollow_of_new (h : s.Firm S total) (he : e ∈ s.new) : e.isHollow = false :=
  h.not_hollow_of_target (by simp [target, he])

/-- What deals with entries that are not hollow. -/
theorem of_sound (h : s.Firm S total) (hs : s'.solid.Sound (S.withNotices s.document.notices))
    (hold : s'.old.Sublist s.old) (hcount : s'.old.countP Block.isHollow = s.old.countP Block.isHollow) :
    s'.Firm S total := by
  have hnotices : s'.document.notices = s.document.notices := hs.shows.since.notices
  obtain ⟨done, hdone, htotal⟩ := h.errors
  refine ⟨by rw [hnotices]; exact hs, fun e he => h.fragments e (hold.subset he), done, ?_, by rw [hcount, htotal]⟩
  obtain ⟨errors, herrors⟩ := hdone
  exact ⟨errors, hnotices ▸ herrors⟩

theorem solid_cons (ho : s.old = o :: os) (hsolid : o.isHollow = false) :
    s.solid.old = o :: os.filter fun e => !e.isHollow := by
  rw [solid, ho, List.filter_cons_of_pos (by simpa using hsolid)]

theorem solid_snoc (ho : s.old = os ++ [o]) (hsolid : o.isHollow = false) :
    s.solid.old = (os.filter fun e => !e.isHollow) ++ [o] := by
  rw [solid, ho, List.filter_append, List.filter_cons_of_pos (by simpa using hsolid), List.filter_nil]

theorem advance (h : s.Firm S total) (ho : s.old = n :: os) (hn : s.new = n :: ns) :
    ({ s with old := os, new := ns, front := n :: s.front } : Pass Block).Firm S total := by
  have hsolid := h.not_hollow_of_new (e := n) (by simp [hn])
  refine h.of_sound (h.sound.advance (solid_cons ho hsolid) hn) ?_ ?_
  · rw [ho]
    exact List.sublist_cons_self n os
  · rw [ho, List.countP_cons_of_neg (by simpa using hsolid)]

theorem retreat (h : s.Firm S total) (ho : s.old = os ++ [n]) (hn : s.new = ns ++ [n]) :
    ({ s with old := os, new := ns, back := n :: s.back } : Pass Block).Firm S total := by
  have hsolid := h.not_hollow_of_new (e := n) (by simp [hn])
  refine h.of_sound (h.sound.retreat (solid_snoc ho hsolid) hn) ?_ ?_
  · rw [ho]
    exact List.sublist_append_left os [n]
  · rw [ho, List.countP_append, List.countP_singleton, if_neg (by simpa using hsolid)]
    rfl

/-- Without hollow entries nothing is left out. -/
theorem solid_eq (h : ∀ e ∈ s.old, e.isHollow = false) : s.solid = s := by
  have hold : (s.old.filter fun e => !e.isHollow) = s.old :=
    List.filter_eq_self.2 fun e he => by simpa using h e he
  rw [solid, hold]

theorem placeRest (h : s.Firm S total) (ho : s.old = []) : (s.placeRest S.site).Firm S total := by
  have hnone : ∀ e ∈ s.old, e.isHollow = false := fun e he => by
    rw [ho] at he
    cases he
  have hold : (s.placeRest S.site).old = [] := by simp [Pass.placeRest, ho]
  have hsound := h.sound
  rw [solid_eq hnone] at hsound
  have hplaced : (s.placeRest S.site).Sound (S.withNotices s.document.notices) := hsound.placeRest ho
  refine h.of_sound ?_ (by rw [hold]; exact List.nil_sublist _) (by rw [hold, ho])
  rw [solid_eq (by rw [hold]; exact fun e he => by cases he)]
  exact hplaced

theorem exchangeLast (h : s.Firm S total) (ho : s.old = [o]) (hsolid : o.isHollow = false) (hn : s.new = [n])
    (hne : o ≠ n) : (s.exchangeLast S.site o n).Firm S total := by
  have hnone : ∀ e ∈ s.old, e.isHollow = false := fun e he => by
    rw [ho] at he
    rw [List.mem_singleton.1 he, hsolid]
  have hold : (s.exchangeLast S.site o n).old = [] := by simp [Pass.exchangeLast]
  have hsound := h.sound
  rw [solid_eq hnone] at hsound
  have hexchanged : (s.exchangeLast S.site o n).Sound (S.withNotices s.document.notices) :=
    hsound.exchangeLast ho hn hne
  refine h.of_sound ?_ (by rw [hold]; exact List.nil_sublist _) ?_
  · rw [solid_eq (by rw [hold]; exact fun e he => by cases he)]
    exact hexchanged
  · rw [hold, ho, List.countP_singleton, if_neg (by simpa using hsolid)]
    rfl

theorem swapEnds {z : Block} (h : s.Firm S total) (ho : s.old = o :: (os ++ [z])) (hn : s.new = z :: (ns ++ [o])) :
    (s.swapEnds S.site o z).Firm S total := by
  have hosolid := h.not_hollow_of_new (e := o) (by simp [hn])
  have hzsolid := h.not_hollow_of_new (e := z) (by simp [hn])
  have hsolid : s.solid.old = o :: ((os.filter fun e => !e.isHollow) ++ [z]) := by
    rw [solid_cons ho hosolid, List.filter_append, List.filter_cons_of_pos (by simpa using hzsolid), List.filter_nil]
  have hold : (s.swapEnds S.site o z).old = os := by simp [Pass.swapEnds, ho]
  have hswap : (s.swapEnds S.site o z).solid = s.solid.swapEnds S.site o z := by
    have hsolidOld : (s.solid.swapEnds S.site o z).old = os.filter fun e => !e.isHollow := by
      simp [Pass.swapEnds, hsolid]
    rw [solid, hold, ← hsolidOld]
    rfl
  refine h.of_sound ?_ ?_ ?_
  · rw [hswap]
    exact h.sound.swapEnds hsolid hn
  · rw [hold, ho]
    exact (List.sublist_append_left os [z]).cons o
  · rw [hold, ho, List.countP_cons_of_neg (by simpa using hosolid), List.countP_append, List.countP_singleton,
      if_neg (by simpa using hzsolid)]
    rfl

/-- The first old entry, which is not hollow, is dealt with. -/
theorem past (h : s.Firm S total) (ho : s.old = o :: os) (hsolid : o.isHollow = false) (hold : s'.old = os)
    (hs : s'.solid.Sound (S.withNotices s.document.notices)) : s'.Firm S total := by
  refine h.of_sound hs ?_ ?_
  · rw [hold, ho]
    exact List.sublist_cons_self o os
  · rw [hold, ho, List.countP_cons_of_neg (by simpa using hsolid)]

/-- A hollow entry is dropped with an error. -/
theorem dropHollow (h : s.Firm S total) (ho : s.old = o :: os) (hhollow : o.isHollow = true) :
    ({ s.remove S.site o with old := os } : Pass Block).Firm S total := by
  have hshows := h.sound.shows
  have hfragment := h.fragments o (by simp [ho]) hhollow
  obtain ⟨notice, herror, hdocument⟩ := remove_hollow (S := S) (s := s) hshows.forest hhollow fun f hf =>
    (hshows.since.relinked.isFragment f).trans (hfragment f hf)
  have hold : s.solid.old = os.filter fun e => !e.isHollow := by
    rw [solid, ho, List.filter_cons_of_neg (by simpa using hhollow)]
  have hsound := h.sound
  have hnoted := hshows.withNotices (notice :: s.document.notices)
  refine ⟨?_, fun e he => h.fragments e (by rw [ho]; exact List.mem_cons_of_mem o he), ?_⟩
  · show Sound (S.withNotices (s.remove S.site o).document.notices)
      { (s.remove S.site o).solid with old := os.filter fun e => !e.isHollow }
    rw [← hold]
    refine ⟨?_, hsound.target_nodup, hsound.target_mem, hsound.old_nodup, hsound.old_back, hsound.unindexed, ?_⟩
    · show (S.withNotices (s.remove S.site o).document.notices).Shows (s.remove S.site o).document [] s.solid.live
      rw [hdocument]
      exact hnoted
    · intro index hindex
      obtain ⟨hsegment, hnew, hpassed⟩ := hsound.indexed index hindex
      exact ⟨hsegment, hnew, hpassed⟩
  · obtain ⟨done, hdone, htotal⟩ := h.errors
    refine ⟨1 + done, ?_, ?_⟩
    · show S.origin.Complains (s.remove S.site o).document (1 + done)
      rw [hdocument]
      exact hdone.trans (complains_note s.document herror)
    · show 1 + done + os.countP Block.isHollow = total
      rw [← htotal, ho, List.countP_cons_of_pos hhollow]
      omega

theorem solid_insertAll (s : Pass Block) (site : Site Block) (entries : List Block)
    (reference : Option NodeId) :
    (s.insertAll site entries reference).solid = s.solid.insertAll site entries reference := by
  induction entries generalizing s with
  | nil => rfl
  | cons e rest ih => exact ih (s.insert site e reference)

theorem index_new (h : s.Firm S total) :
    ({ s with index := some (s.index.getD ⟨s.new, s.settled⟩) } : Pass Block).Firm S total :=
  h.of_sound h.sound.index_new (List.Sublist.refl _) rfl

/-- A hollow entry has no position in the new list. -/
theorem position?_hollow (h : s.Firm S total) {index : Index Block} (hindex : s.index = some index)
    (ho : o.isHollow = true) : index.position? o = none := by
  by_contra hpos
  obtain ⟨i, hp⟩ := Option.ne_none_iff_exists'.1 hpos
  have hmem : o ∈ s.target := List.mem_of_getElem? ((h.sound.indexed index hindex).getElem?_of_position? hp)
  rw [h.not_hollow_of_target hmem] at ho
  cases ho

/-- The first old entry is dealt with by its position in the new list. -/
theorem lookUp_of_index (h : s.Firm S total) {index : Index Block} (hindex : s.index = some index)
    (ho : s.old = o :: os) (hn : s.new = n :: ns) (hne : o ≠ n) : (s.lookUp S.site o n).Firm S total := by
  have hi := h.sound.indexed index hindex
  have hsome : s.solid.index ≠ none := by
    show s.index ≠ none
    rw [hindex]
    exact Option.some_ne_none index
  have hs : ({ s with index := some index } : Pass Block) = s := by rw [← hindex]
  cases hhollow : o.isHollow with
  | true =>
    have hnone : index.position? o = none := h.position?_hollow hindex hhollow
    simp only [Pass.lookUp, hindex, Option.getD_some, hs, hnone]
    rw [ho]
    exact h.dropHollow ho hhollow
  | false =>
    have hosolid := solid_cons ho hhollow
    simp only [Pass.lookUp, hindex, Option.getD_some, hs]
    split
    · rename_i hp
      have hfront : o ∉ s.front := fun hf =>
        Indexed.not_mem_of_position? hp (hi.passed o (by simp [hosolid]) hf)
      rw [ho]
      exact h.past ho hhollow rfl (h.sound.remove hosolid hfront)
    · rename_i i hp
      split_ifs with hin hrun
      · obtain ⟨hsplit, hnot⟩ := h.sound.split_new hi hp hin.1 hin.2
        have hfront : o ∉ s.front := h.sound.not_front_of_new (hsplit ▸ by simp)
        have hplaced := h.sound.placeRun hosolid (List.take_append_drop (i - s.settled) s.new).symm hnot hfront hsome
        refine h.of_sound ?_ ?_ ?_
        · show Sound (S.withNotices s.document.notices)
            { ((s.find S.site o .first).2.insertAll S.site (s.new.take (i - s.settled))
                (some (s.find S.site o .first).1)).solid with
              new := s.new.drop (i - s.settled), front := (s.new.take (i - s.settled)).reverse ++ s.front }
          rw [solid_insertAll]
          exact hplaced
        · rw [old_insertAll]
          exact List.Sublist.refl _
        · rw [old_insertAll]
          rfl
      · obtain ⟨hsplit, -⟩ := h.sound.split_new hi hp hin.1 hin.2
        have hfront : o ∉ s.front := h.sound.not_front_of_new (hsplit ▸ by simp)
        rw [ho, hn]
        exact h.past ho hhollow rfl (h.sound.replace hosolid hn hne hfront hsome)
      · rw [ho, ← hindex]
        exact h.past ho hhollow rfl (h.sound.pass hosolid (h.sound.mem_front_of_passed hi hosolid hn hne hp hin))

theorem lookUp (h : s.Firm S total) (ho : s.old = o :: os) (hn : s.new = n :: ns) (hne : o ≠ n) :
    (s.lookUp S.site o n).Firm S total :=
  lookUp_of_index (s := { s with index := some (s.index.getD ⟨s.new, s.settled⟩) }) h.index_new rfl ho hn hne

/-- A step keeps what is shown, unless a hollow entry is to be replaced. -/
theorem step (h : s.Firm S total) (hnew : s.new ≠ [])
    (hlast : ∀ o n, s.old = [o] → s.new = [n] → o.isHollow = false) : (s.step S.site).Firm S total := by
  unfold Pass.step
  split
  · rename_i ho
    exact h.placeRest ho
  · rename_i hn
    exact absurd hn hnew
  · rename_i o os n ns ho hn
    have holast := dropLast_append_getLastD o os
    have hnlast := dropLast_append_getLastD n ns
    split_ifs with heq hsame hone hswap
    · subst heq
      exact h.advance ho hn
    · rw [← hsame] at hnlast ⊢
      exact h.retreat (by rw [ho, holast]) (by rw [hn, hnlast])
    · rw [Bool.and_eq_true, List.isEmpty_iff, List.isEmpty_iff] at hone
      rw [hone.1] at ho
      rw [hone.2] at hn
      exact h.exchangeLast ho (hlast o n ho hn) hn heq
    · have hos : os ≠ [] := fun hnil => heq (by rw [hswap.2, hnil]; rfl)
      have hns : ns ≠ [] := fun hnil => heq (by rw [hswap.1, hnil]; rfl)
      rw [List.dropLast_cons_of_ne_nil hos, ← hswap.2, List.cons_append] at holast
      rw [List.dropLast_cons_of_ne_nil hns, ← hswap.1, List.cons_append] at hnlast
      exact h.swapEnds (ho.trans holast.symm) (hn.trans hnlast.symm)
    · exact h.lookUp ho hn heq

/-- The place of the last old entry, a hollow one, is not given to the last new one, which is missing then. -/
theorem forfeit (h : s.Firm S total) (ho : s.old = [o]) (hhollow : o.isHollow = true) (hn : s.new = [n]) :
    ∃ d notices, (s.step S.site).document = d ∧ (s.step S.site).old = [] ∧ (s.step S.site).new = [] ∧
      (S.withNotices notices).Shows d [] (s.target.filter (· ≠ n)) ∧ S.origin.Complains d total := by
  have hnew : n ∈ s.new := by simp [hn]
  have hsolid := h.not_hollow_of_new hnew
  have hne : o ≠ n := by
    rintro rfl
    rw [hsolid] at hhollow
    cases hhollow
  have hstep : s.step S.site = s.exchangeLast S.site o n := by
    unfold Pass.step
    rw [ho, hn]
    simp [hne]
  have hknows : s.knows o = false := by
    rw [knows, Option.any_eq_false]
    intro index hindex
    rw [h.position?_hollow hindex hhollow]
    rfl
  have hlive : s.solid.live = s.front.reverse ++ s.back := by
    have hold : s.solid.old = [] := by
      rw [solid, ho, List.filter_cons_of_neg (by simpa using hhollow), List.filter_nil]
    rw [live, hold, List.filter_nil, List.append_nil]
    rfl
  have hshows := h.sound.shows
  rw [hlive] at hshows
  obtain ⟨hcollected, -⟩ := hshows.shows_collect (h.sound.new_mem hnew)
  have hnot : n ∉ s.front.reverse ++ s.back := by
    rw [List.mem_append, List.mem_reverse, not_or]
    exact ⟨h.sound.not_front_of_new hnew, h.sound.not_back_of_new hnew⟩
  have hsame : Stage.collected n (s.front.reverse ++ s.back) = s.front.reverse ++ s.back := by
    cases n with
    | single _ => rfl
    | group _ => exact List.filter_eq_self.2 fun e he => by simpa using ne_of_mem_of_not_mem he hnot
  rw [hsame] at hcollected
  have hfragment := h.fragments o (by simp [ho]) hhollow
  obtain ⟨notice, herror, hdocument⟩ := replace_hollow (S := S) (s := s) (n := n) hcollected.forest hhollow fun f hf =>
    (hcollected.since.relinked.isFragment f).trans (hfragment f hf)
  have hnotices : (s.document.access n .insert).2.notices = s.document.notices := hcollected.since.notices
  have htarget : s.target.filter (· ≠ n) = s.front.reverse ++ s.back := by
    rw [target, hn, List.filter_append, List.filter_append, List.filter_cons_of_neg (by simp), List.filter_nil,
      List.append_nil, ← List.filter_append, List.filter_eq_self]
    exact fun e he => by simpa using ne_of_mem_of_not_mem he hnot
  refine ⟨_, notice :: s.document.notices, rfl, by rw [hstep]; rfl, by rw [hstep]; rfl, ?_, ?_⟩
  · rw [hstep, document_exchangeLast, hknows, htarget, if_neg Bool.false_ne_true, hdocument]
    have hnoted := hcollected.withNotices (notice :: s.document.notices)
    rw [note, hnotices]
    exact hnoted
  · obtain ⟨done, hdone, htotal⟩ := h.errors
    rw [hstep, document_exchangeLast, hknows, if_neg Bool.false_ne_true, hdocument]
    rw [ho, List.countP_singleton, if_pos hhollow] at htotal
    have hkept := hdone.trans (Complains.of_eq hnotices)
    have hnoted := hkept.trans (complains_note (s.document.access n .insert).2 herror)
    rw [← htotal, Nat.add_comm done 1, ← Nat.zero_add done]
    exact hnoted

end Firm

/-- The new entry that is to take the place of a hollow one, if a pass comes to that. -/
def forfeits (s : Pass Block) (site : Site Block) : List Block :=
  if _h : s.new.isEmpty then []
  else if s.old.length = 1 ∧ s.new.length = 1 ∧ s.old.all Block.isHollow then s.new
  else (s.step site).forfeits site
termination_by s.remaining
decreasing_by exact remaining_step_lt s site (not_isDone_of_new (by simpa using _h))

theorem Alike.forfeits {site site' : Site Block} (h : Alike s s') : s.forfeits site = s'.forfeits site' := by
  fun_induction Pass.forfeits s site generalizing s' with
  | case1 s hs =>
    rw [Pass.forfeits, dif_pos (by rwa [← h.new])]
  | case2 s hs hlast =>
    rw [Pass.forfeits, dif_neg (by rwa [← h.new]), if_pos (by rwa [← h.old, ← h.new])]
    exact h.new
  | case3 s hs hlast ih =>
    rw [Pass.forfeits.eq_def s', dif_neg (by rwa [← h.new]), if_neg (by rwa [← h.old, ← h.new])]
    exact ih (h.step (by simpa using hs))

/-- The new entry that is missing after a reconciliation since it was to take the place of a hollow one. -/
def forfeited (a b : List Block) : List Block :=
  (start .empty a b).forfeits ⟨⟨0⟩, none, fun _ _ d => (⟨0⟩, d)⟩

theorem forfeits_start (d : Document) (site : Site Block) (a b : List Block) :
    (start d a b).forfeits site = forfeited a b := by
  have hstart : Alike (start d a b) (start .empty a b) := ⟨rfl, rfl, rfl, rfl, rfl⟩
  exact hstart.forfeits

theorem Firm.settle {total : Nat} (h : s.Firm S total) :
    let done := s.settle S.site
    (done.Firm S total ∧ s.forfeits S.site = []) ∨
      (done.old = [] ∧ ∃ notices, (S.withNotices notices).Shows done.document []
          (s.target.filter (· ∉ s.forfeits S.site)) ∧ S.origin.Complains done.document total) := by
  fun_induction Pass.settle s S.site with
  | case1 s hs =>
    refine .inl ⟨h, ?_⟩
    rw [Pass.forfeits, dif_pos hs]
  | case2 s hs ih =>
    have hnew : s.new ≠ [] := by simpa using hs
    by_cases hlast : s.old.length = 1 ∧ s.new.length = 1 ∧ s.old.all Block.isHollow = true
    · obtain ⟨o, ho⟩ := List.length_eq_one_iff.1 hlast.1
      obtain ⟨n, hn⟩ := List.length_eq_one_iff.1 hlast.2.1
      have hhollow : o.isHollow = true := by simpa [ho] using hlast.2.2
      obtain ⟨d, notices, hd, hold, hempty, hshows, hcomplains⟩ := h.forfeit ho hhollow hn
      have hsettled : (s.step S.site).settle S.site = s.step S.site := by
        rw [Pass.settle, dif_pos (by rw [hempty]; rfl)]
      have hforfeits : s.forfeits S.site = [n] := by
        rw [Pass.forfeits, dif_neg hs, if_pos hlast, hn]
      refine .inr ?_
      rw [hsettled, hforfeits, hd]
      refine ⟨hold, notices, ?_, hcomplains⟩
      simpa using hshows
    · have hforfeits : s.forfeits S.site = (s.step S.site).forfeits S.site := by
        rw [Pass.forfeits, dif_neg hs, if_neg hlast]
      have hsolid : ∀ o n, s.old = [o] → s.new = [n] → o.isHollow = false := fun o n ho hn => by
        by_contra hhollow
        exact hlast ⟨by rw [ho]; rfl, by rw [hn]; rfl, by rw [ho]; simpa using hhollow⟩
      rw [hforfeits, ← target_step s S.site]
      exact ih (h.step hnew hsolid)

/-- Some entries are removed, each hollow one of them with an error. -/
theorem foldl_remove {entries : List Block} (h : (S.withNotices s.document.notices).Shows s.document [] live)
    (hfragments : ∀ e ∈ entries, e.isHollow = true → ∀ f ∈ e.fragments, S.origin.isFragment f = true)
    (hmem : ∀ e ∈ entries, e.isHollow = false → e ∈ live)
    (hnd : (entries.filter fun e => !e.isHollow).Nodup) :
    let after := (entries.foldl (fun s e => s.remove S.site e) s).document
    (S.withNotices after.notices).Shows after [] (live.filter (· ∉ entries)) ∧
      s.document.Complains after (entries.countP Block.isHollow) := by
  induction entries generalizing s live with
  | nil =>
    refine ⟨?_, .refl s.document⟩
    simpa using h
  | cons e rest ih =>
    have hfragments' := fun x hx => hfragments x (List.mem_cons_of_mem e hx)
    cases hhollow : e.isHollow with
    | true =>
      obtain ⟨notice, herror, hdocument⟩ := remove_hollow (S := S) (s := s) h.forest hhollow fun f hf =>
        (h.since.relinked.isFragment f).trans (hfragments e (List.mem_cons_self ..) hhollow f hf)
      have hnoted : (S.withNotices (s.remove S.site e).document.notices).Shows (s.remove S.site e).document []
          live := by
        rw [hdocument]
        exact h.withNotices (notice :: s.document.notices)
      rw [List.filter_cons_of_neg (by simpa using hhollow)] at hnd
      obtain ⟨hshows, hcomplains⟩ := ih hnoted hfragments'
        (fun x hx => hmem x (List.mem_cons_of_mem e hx)) hnd
      have habsent : ∀ x ∈ live, x ≠ e := by
        rintro x hx rfl
        rw [(h.holds x (h.live_mem x hx)).not_hollow] at hhollow
        cases hhollow
      have hfilter : live.filter (· ∉ e :: rest) = live.filter (· ∉ rest) :=
        List.filter_congr fun x hx => by simp [habsent x hx]
      rw [hfilter, List.countP_cons_of_pos hhollow]
      refine ⟨hshows, ?_⟩
      have hone := complains_note s.document herror
      rw [← hdocument] at hone
      exact hone.trans hcomplains
    | false =>
      obtain ⟨front, back, rfl⟩ := List.append_of_mem (hmem e (List.mem_cons_self ..) hhollow)
      have hnot := h.not_mem_around
      have hremoved : (S.withNotices s.document.notices).Shows (s.remove S.site e).document [] (front ++ back) :=
        h.pass_remove
      have hnotices : (s.remove S.site e).document.notices = s.document.notices := hremoved.since.notices
      rw [List.filter_cons_of_pos (by simpa using hhollow), List.nodup_cons] at hnd
      rw [← hnotices] at hremoved
      have hlater : ∀ x ∈ rest, x.isHollow = false → x ∈ front ++ back := by
        intro x hx hsolid
        have hne : x ≠ e := by
          rintro rfl
          exact hnd.1 (List.mem_filter.2 ⟨hx, by simpa using hsolid⟩)
        have hlive := hmem x (List.mem_cons_of_mem e hx) hsolid
        simpa [hne] using hlive
      obtain ⟨hshows, hcomplains⟩ := ih hremoved hfragments' hlater hnd.2
      rw [filter_notMem_cons hnot, List.countP_cons_of_neg (by simpa using hhollow)]
      exact ⟨hshows, (Complains.of_eq hnotices).trans hcomplains⟩

/-- When no new entry is left, the old ones go. -/
theorem Firm.removeRest {total : Nat} (h : s.Firm S total) (hnew : s.new = []) :
    ∃ notices, (S.withNotices notices).Shows (s.removeRest S.site).document [] (s.target.filter (· ∉ s.old)) ∧
      S.origin.Complains (s.removeRest S.site).document total := by
  have hshows := h.sound.shows
  have hmem : ∀ e ∈ s.old, e.isHollow = false → e ∈ s.solid.live := by
    intro e he hsolid
    have hold : e ∈ s.solid.old := List.mem_filter.2 ⟨he, by simpa using hsolid⟩
    simp only [live, List.mem_append, List.mem_reverse, List.mem_filter]
    by_cases hf : e ∈ s.solid.front
    · exact .inl (.inl hf)
    · exact .inl (.inr ⟨hold, by simpa using hf⟩)
  obtain ⟨hrest, hcomplains⟩ := foldl_remove hshows h.fragments hmem h.sound.old_nodup
  have hlive : s.solid.live.filter (· ∉ s.old) = s.target.filter (· ∉ s.old) := by
    have hnone : (s.solid.old.filter (· ∉ s.front)).filter (· ∉ s.old) = [] := by
      rw [List.filter_eq_nil_iff]
      intro e he
      simpa using (List.mem_filter.1 (List.mem_filter.1 he).1).1
    rw [live, target, hnew, List.append_nil, List.filter_append, List.filter_append]
    show _ ++ (s.solid.old.filter (· ∉ s.front)).filter (· ∉ s.old) ++ _ = _
    rw [hnone, List.append_nil, List.filter_append]
    rfl
  rw [hlive] at hrest
  obtain ⟨done, hdone, htotal⟩ := h.errors
  refine ⟨_, hrest, ?_⟩
  rw [← htotal, Nat.add_comm]
  exact hdone.trans hcomplains

/-- What is looked up is among the new entries, of which none is hollow. -/
theorem solid_of_index (hnew : ∀ e ∈ s.new, e.isHollow = false)
    (hindex : ∀ index, s.index = some index → ∀ e ∈ index.entries, e.isHollow = false) :
    ∀ e ∈ (s.index.getD ⟨s.new, s.settled⟩).entries, e.isHollow = false := by
  cases hi : s.index with
  | none => exact hnew
  | some index => exact hindex index hi

/-- Unless it can take the place of the only new entry that is left, a hollow entry is looked up in vain. -/
theorem step_of_hollow {site : Site Block} (hs : s.old = o :: os) (hn : s.new = n :: ns)
    (hold : ∀ e ∈ s.old, e.isHollow = true) (hnew : ∀ e ∈ s.new, e.isHollow = false)
    (hindex : ∀ index, s.index = some index → ∀ e ∈ index.entries, e.isHollow = false)
    (hmore : ¬ (os = [] ∧ ns = [])) :
    s.step site = { ({ s with index := some (s.index.getD ⟨s.new, s.settled⟩) } : Pass Block).remove site o with
      old := os } := by
  have hdiffer : ∀ x ∈ o :: os, ∀ y ∈ n :: ns, x ≠ y := by
    rintro x hx y hy rfl
    have hsolid := hnew x (hn ▸ hy)
    rw [hold x (hs ▸ hx)] at hsolid
    cases hsolid
  have holast : os.getLastD o ∈ o :: os := List.getLastD_mem_cons
  have hnlast : ns.getLastD n ∈ n :: ns := List.getLastD_mem_cons
  have hnone : (s.index.getD ⟨s.new, s.settled⟩).position? o = none := by
    by_contra hpos
    obtain ⟨i, hp⟩ := Option.ne_none_iff_exists'.1 hpos
    obtain ⟨j, hj, -⟩ := Option.map_eq_some_iff.1 hp
    have hsolid := solid_of_index hnew hindex o (List.mem_of_getElem? (getElem?_of_lastPosition? hj))
    rw [hold o (hs ▸ List.mem_cons_self ..)] at hsolid
    cases hsolid
  unfold Pass.step
  rw [hs, hn]
  dsimp only
  rw [if_neg (hdiffer o (by simp) n (by simp)), if_neg (hdiffer _ holast _ hnlast),
    if_neg (by simpa using hmore), if_neg fun h => hdiffer o (by simp) _ hnlast h.1]
  simp only [Pass.lookUp, ← hn, hnone, hs, List.tail_cons]

/-- Hollow entries are dropped one after another, but for the last of them if one new entry is left. -/
theorem forfeits_of_hollow {site : Site Block} (hold : ∀ e ∈ s.old, e.isHollow = true)
    (hnew : ∀ e ∈ s.new, e.isHollow = false)
    (hindex : ∀ index, s.index = some index → ∀ e ∈ index.entries, e.isHollow = false) :
    s.forfeits site = if s.old ≠ [] ∧ s.new.length = 1 then s.new else [] := by
  induction hs : s.old generalizing s with
  | nil =>
    rw [if_neg (by simp), Pass.forfeits]
    split
    · rfl
    · rw [if_neg (by simp [hs]), Pass.forfeits, dif_pos]
      simp [Pass.step, Pass.placeRest, hs]
  | cons o os ih =>
    cases hn : s.new with
    | nil =>
      rw [if_neg (by simp), Pass.forfeits, dif_pos (by simp [hn])]
    | cons n ns =>
      have hhollow : o.isHollow = true := hold o (by simp [hs])
      rw [Pass.forfeits, dif_neg (by simp [hn])]
      by_cases hone : os = [] ∧ ns = []
      · rw [if_pos, if_pos (by simp [hone.2]), hn]
        simp [hs, hn, hone, hhollow]
      · have hstep : s.step site = _ := step_of_hollow hs hn hold hnew hindex hone
        have hrest := ih (s := s.step site) (by rw [hstep]; exact fun e he => hold e (by simp [hs, he]))
          (by rw [hstep]; exact hnew)
          (by rw [hstep]; rintro index hi; obtain rfl := Option.some.inj hi; exact solid_of_index hnew hindex)
          (by rw [hstep])
        have hsame : (s.step site).new = n :: ns := by
          rw [hstep]
          exact hn
        rw [if_neg, hrest, hsame]
        · by_cases hos : os = []
          · have hns : ns ≠ [] := fun hns => hone ⟨hos, hns⟩
            rw [if_neg (by simp [hos]), if_neg (by simpa using hns)]
          · simp [hos]
        · simpa [hs, hn, hhollow] using fun hos hns => absurd ⟨hos, hns⟩ hone

end Pass

/-! ### The outcome -/

variable {S : Stage} {a b : List Block}

theorem Pass.firm_start (h : S.Shows S.origin [] (a.filter fun e => !e.isHollow)) (hb : b.Nodup)
    (hmem : ∀ e ∈ b, e ∈ S.blocks)
    (hfragments : ∀ e ∈ a, e.isHollow = true → ∀ f ∈ e.fragments, S.origin.isFragment f = true) :
    (Pass.start S.origin a b).Firm S (a.countP Block.isHollow) where
  sound := Pass.sound_start (S := S.withNotices S.origin.notices) (h.withNotices S.origin.notices) hb hmem
  fragments := hfragments
  errors := ⟨0, .refl S.origin, Nat.zero_add _⟩

/-- What a reconciliation leaves in the container if some of the old entries have no nodes: the new list without
what is left over and without the entry that was to take the place of a hollow one. Each hollow entry makes one
error, and nothing else does. -/
theorem reconcile_hollow (h : S.Shows S.origin [] (a.filter fun e => !e.isHollow)) (hb : b.Nodup)
    (hmem : ∀ e ∈ b, e ∈ S.blocks)
    (hfragments : ∀ e ∈ a, e.isHollow = true → ∀ f ∈ e.fragments, S.origin.isFragment f = true) :
    let after := (S.origin.reconcile S.site a b).document
    ∃ notices, (S.withNotices notices).Shows after []
        ((b.filter (· ∉ Pass.leftover a b)).filter (· ∉ Pass.forfeited a b)) ∧
      S.origin.Complains after (a.countP Block.isHollow) := by
  intro after
  have hstart := Pass.firm_start h hb hmem hfragments
  have htarget : (Pass.start S.origin a b).target = b := by simp [Pass.target, Pass.start]
  have hafter : after = (((Pass.start S.origin a b).settle S.site).removeRest S.site).document := by
    show ((Pass.start S.origin a b).run S.site).document = _
    rw [Pass.run_eq_removeRest]
  have hold := Pass.old_settle_start S.origin S.site a b
  have hforfeits := Pass.forfeits_start S.origin S.site a b
  rw [hafter, ← hold, ← hforfeits]
  rcases hstart.settle with ⟨hfirm, hnone⟩ | ⟨hnil, notices, hshows, hcomplains⟩
  · obtain ⟨notices, hshows, hcomplains⟩ := hfirm.removeRest (Pass.new_settle _ _)
    rw [Pass.target_settle, htarget] at hshows
    refine ⟨notices, ?_, hcomplains⟩
    rw [hnone]
    simpa using hshows
  · have hdone : (((Pass.start S.origin a b).settle S.site).removeRest S.site).document
        = ((Pass.start S.origin a b).settle S.site).document := by
      rw [Pass.removeRest, hnil]
      rfl
    rw [htarget] at hshows
    rw [hdone, hnil]
    refine ⟨notices, ?_, hcomplains⟩
    simpa using hshows

/-- In the place of hollow entries alone, all of a new list is shown, unless it is a single entry: that is
missing. -/
theorem shown_of_all_hollow (ha : ∀ e ∈ a, e.isHollow = true) (hne : a ≠ []) (hb : ∀ e ∈ b, e.isHollow = false) :
    (b.filter (· ∉ Pass.leftover a b)).filter (· ∉ Pass.forfeited a b) = if b.length = 1 then [] else b := by
  have hkept : b.filter (· ∉ Pass.leftover a b) = b := by
    rw [List.filter_eq_self]
    intro e he
    have hnot : e ∉ Pass.leftover a b := fun hl => by
      have hhollow := ha e ((Pass.leftover_sublist a b).subset hl)
      rw [hb e he] at hhollow
      cases hhollow
    simpa using hnot
  have hforfeited : Pass.forfeited a b = if b.length = 1 then b else [] := by
    let site : Site Block := ⟨⟨0⟩, none, fun _ _ d => (⟨0⟩, d)⟩
    have hstart : (Pass.start .empty a b).forfeits site = _ :=
      Pass.forfeits_of_hollow ha hb (fun index hi => by cases hi)
    rw [Pass.forfeited, hstart]
    simp [Pass.start, hne]
  rw [hkept, hforfeited]
  split
  · rw [List.filter_eq_nil_iff]
    intro e he
    simpa using he
  · simp

end LiveMarkup
