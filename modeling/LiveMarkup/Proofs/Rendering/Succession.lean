import LiveMarkup.Proofs.Document.Edits
import LiveMarkup.Proofs.Document.Leftovers
import LiveMarkup.Proofs.Rendering.Settling
/-!
# Values one after another in a child hole

A child hole that is given values of its own, none of them a list of blocks, shows the last one that it has a
use for (`ChildBinding.updates_show_last`). There is at most one block in front of the placeholder then, so
none is left out when the entries are reconciled, and a block that has gone is where it can be fetched again:
it is alone, or a group of which all nodes but the first one are in their fragment (`Document.Hosts`).

The primitive that the binding remembers is the last value as far as comparing goes. It need not be that very
value, since one that is the same is not remembered in its place, but what is the same as the last value is the
same as what is remembered. While something else is shown no primitive is remembered, so a text that comes back
is written again.
-/

namespace LiveMarkup

open Document

/-- A child hole with blocks that are used nowhere else. They may come to stand in front of the placeholder,
and so may the text of the hole; other nodes stand around. -/
structure Niche where
  container : NodeId
  placeholder : NodeId
  text : NodeId
  guests : List Block
  ahead : List NodeId
  behind : List NodeId

namespace Niche

/-- All that may be shown. -/
def blocks (N : Niche) : List Block :=
  .single N.text :: N.guests

/-- The nodes that may be shown. -/
def nodes (N : Niche) : List NodeId :=
  N.blocks.flatMap Block.nodes

end Niche

namespace Document

variable {d d' d'' : Document} {N : Niche} {live blocks : List Block} {e : Block} {n : NodeId}

/-- Some of the blocks of a hole stand in front of its placeholder, and each of the others can be fetched. The
blocks have nothing in common, and the hole is in none of them. -/
structure Hosts (d : Document) (N : Niche) (live : List Block) : Prop where
  sound : d.Sound
  text : d.kind N.text = .text
  holds : ∀ e ∈ N.blocks, d.Holds e e.nodes
  apart : ∀ e ∈ N.blocks, ∀ x ∈ N.blocks, x ≠ e → ∀ n ∈ e.held, n ∉ x.held
  outside : ∀ e ∈ N.blocks, N.container ∉ e.fragments
  clear : ∀ e ∈ N.blocks, ∀ n ∈ e.nodes, ¬ d.Above N.container n
  mem : ∀ e ∈ live, e ∈ N.blocks
  row : d.children N.container = N.ahead ++ live.flatMap Block.nodes ++ N.placeholder :: N.behind
  kept : ∀ e ∈ live, ∀ f ∈ e.fragments, d.children f = []
  stowed : ∀ e ∈ N.blocks, e ∉ live → d.Stowed N.container e e.nodes

/-- Only where the nodes of a hole are may have changed, and what its text says. -/
structure LeavesAlone (d d' : Document) (N : Niche) : Prop where
  parent? : ∀ n ∉ N.nodes, d'.parent? n = d.parent? n
  children : ∀ q, (d'.children q).filter (· ∉ N.nodes) = (d.children q).filter (· ∉ N.nodes)
  bare : ∀ n, n ≠ N.text → (d'.node n).bare = (d.node n).bare
  attributes : d'.attributes = d.attributes

namespace LeavesAlone

theorem refl (d : Document) (N : Niche) : d.LeavesAlone d N :=
  ⟨fun _ _ => rfl, fun _ => rfl, fun _ _ => rfl, rfl⟩

theorem trans (h : d.LeavesAlone d' N) (h' : d'.LeavesAlone d'' N) : d.LeavesAlone d'' N where
  parent? n hn := (h'.parent? n hn).trans (h.parent? n hn)
  children q := (h'.children q).trans (h.children q)
  bare n hn := (h'.bare n hn).trans (h.bare n hn)
  attributes := h'.attributes.trans h.attributes

end LeavesAlone

theorem Moved.leavesAlone (hf : d.Forest) (h : Moved d d' N.nodes) : d.LeavesAlone d' N where
  parent? _ hn := h.parent? hf hn
  children := h.children
  bare n _ := h.relinked.bare n
  attributes := h.relinked.attributes

theorem leavesAlone_setData (data : String) : d.LeavesAlone (d.setData N.text data) N where
  parent? _ _ := parent?_setData
  children _ := by rw [children_setData]
  bare n hn := by rw [node_setData_of_ne hn]
  attributes := rfl

namespace Hosts

variable {c : ChildBinding}

theorem placeholder_mem (h : d.Hosts N live) : N.placeholder ∈ d.children N.container := by
  rw [h.row]
  simp

/-- The hole as a stage for reconciliations. -/
def stage (h : d.Hosts N live) : Stage where
  origin := d
  container := N.container
  blocks := N.blocks
  span := Block.nodes
  ahead := N.ahead
  behind := N.placeholder :: N.behind
  has_container := has_of_mem_children h.placeholder_mem
  inner_container := h.sound.forest.inner (h.sound.forest.parent_of_mem h.placeholder_mem)
  holds_origin := h.holds
  apart e he x hx hne n hn := by
    have hheld : ∀ e : Block, e.fragments ++ e.nodes = e.held := fun e => by cases e <;> rfl
    rw [hheld] at hn ⊢
    exact h.apart e he x hx hne n hn
  outside := h.outside
  clear_origin := h.clear

theorem shows (h : d.Hosts N live) : h.stage.Shows d [] live where
  origin_forest := h.sound.forest
  since := .refl h.sound.forest _
  live_mem := h.mem
  children := by
    rw [Stage.part_nil]
    exact h.row
  kept := h.kept
  stowed := h.stowed

/-- What the stage shows after some blocks have been moved. -/
theorem of_shows (h : d.Hosts N live) (hs : h.stage.Shows d' [] blocks) : d'.Hosts N blocks where
  sound := ⟨hs.forest, h.sound.owned.relinked hs.since.relinked⟩
  text := by
    rw [hs.since.relinked.kind]
    exact h.text
  holds := hs.holds
  apart := h.apart
  outside := h.outside
  clear e he n hn := hs.clear he hn
  mem := hs.live_mem
  row := by
    have hrow := hs.children
    rw [Stage.part_nil] at hrow
    exact hrow
  kept := hs.kept
  stowed := hs.stowed

/-- Showing blocks in the hole is a reconciliation on its stage. -/
theorem showBlocks_eq (h : d.Hosts N live) (hc : c.placeholder = N.placeholder) (blocks : List Block) :
    c.showBlocks d blocks
      = ({ c with entries := blocks }, (d.reconcile h.stage.site c.entries blocks).document) := by
  have hparent : d.parent? c.placeholder = some N.container := by
    rw [hc]
    exact h.sound.forest.parent_of_mem h.placeholder_mem
  have hsite : c.site N.container = h.stage.site := by
    rw [ChildBinding.site, hc]
    rfl
  rw [ChildBinding.showBlocks, hparent]
  dsimp only
  rw [hsite, Document.reconcile, Pass.result_run, Pass.target, Pass.start, List.reverse_nil,
    List.nil_append, List.append_nil]

/-- Other blocks come to the hole. All of them are shown if those that stay keep their order. -/
theorem showBlocks (h : d.Hosts N c.entries) (hc : c.placeholder = N.placeholder) (hnd : blocks.Nodup)
    (hmem : ∀ e ∈ blocks, e ∈ N.blocks) (horder : common c.entries blocks = common blocks c.entries) :
    (c.showBlocks d blocks).1 = { c with entries := blocks } ∧ (c.showBlocks d blocks).2.Hosts N blocks ∧
      Moved d (c.showBlocks d blocks).2 N.nodes := by
  have hafter : h.stage.Shows (d.reconcile h.stage.site c.entries blocks).document []
      (blocks.filter (· ∉ Pass.leftover c.entries blocks)) := shows_reconcile h.shows hnd hmem
  have hall : blocks.filter (· ∉ Pass.leftover c.entries blocks) = blocks := by
    rw [List.filter_eq_self]
    intro e he
    simpa using leftover_of_same_order h.shows hnd hmem horder e he
  rw [hall] at hafter
  rw [h.showBlocks_eq hc]
  exact ⟨rfl, h.of_shows hafter, hafter.since⟩

/-- The text of the hole is written. -/
theorem setText (h : d.Hosts N live) (data : String) :
    (d.setText N.text data).Hosts N live ∧ ((d.setText N.text data).node N.text).data = data ∧
      d.LeavesAlone (d.setText N.text data) N := by
  rw [ChildBinding.setText_of_kind h.text]
  have hhas : d.Has N.text :=
    (h.holds (.single N.text) (List.mem_cons_self ..)).has N.text (List.mem_singleton_self _)
  refine ⟨⟨h.sound.setData _ data, kind_setData.trans h.text, fun e he => ?_, h.apart, h.outside,
    fun e he n hn ha => ?_, h.mem, children_setData.trans h.row, fun e he f hf => ?_, fun e he hlive => ?_⟩,
    by rw [node_setData hhas], leavesAlone_setData data⟩
  · exact (h.holds e he).evolves (evolves_setData d (List.mem_singleton_self N.text) data : d.Evolves _ _ [])
  · exact h.clear e he n hn (ha.congr fun _ _ => parent?_setData)
  · rw [children_setData]
    exact h.kept e he f hf
  · have hst := h.stowed e he hlive
    refine ⟨fun n hn => ?_, fun g hg => ?_⟩
    · rw [parent?_setData]
      exact hst.absent n hn
    · rw [Whole, Parted, children_setData, parent?_setData]
      exact hst.ready g hg

end Hosts

end Document

/-! ### Values of a hole of its own -/

namespace Value

variable {v w u : Value} {text : NodeId}

/-- A value that is no list of blocks. -/
def IsSole : Value → Bool
  | list (item :: _) => item.isPrimitive
  | _ => true

/-- Whether a child hole has a use for a value. -/
def isUsable (v : Value) : Bool :=
  v.line?.isSome || v.blocks?.isSome

/-- The last of some values that a child hole has a use for. A hole that has been given none shows nothing. -/
def lastUsable (values : List Value) : Value :=
  (values.filter isUsable).getLastD .null

/-- The blocks that a child hole shows of a value. -/
def entries (v : Value) (text : NodeId) : List Block :=
  if v.line?.isSome then [.single text] else v.blocks?.getD []

/-- A value that is shown as a primitive has the text of that. -/
theorem text?_of_line (h : v.line? = some w) : v.text? = w.text? ∧ v.text?.isSome = true := by
  cases v with
  | bool _ | number _ | string _ =>
    obtain rfl := Option.some.inj h
    exact ⟨rfl, rfl⟩
  | list items =>
    cases items with
    | nil => cases h
    | cons item rest =>
      rw [line?] at h
      split at h
      · obtain ⟨joined, hjoined, rfl⟩ := Option.map_eq_some_iff.1 h
        rw [hjoined]
        exact ⟨rfl, rfl⟩
      · cases h
  | _ => cases h

/-- A value that is no list of blocks is one block at most. -/
theorem length_blocks_le (hv : v.IsSole = true) : (v.blocks?.getD []).length ≤ 1 := by
  cases v with
  | list items =>
    cases items with
    | nil => exact Nat.zero_le 1
    | cons item rest =>
      have hitem : item.isPrimitive = true := hv
      rw [blocks?, if_pos hitem]
      exact Nat.zero_le 1
  | node _ | block _ => exact Nat.le_refl 1
  | _ => exact Nat.zero_le 1

theorem length_entries_le (hv : v.IsSole = true) (text : NodeId) : (v.entries text).length ≤ 1 := by
  unfold entries
  split
  · exact Nat.le_refl 1
  · exact length_blocks_le hv

end Value

/-- Of two lists with one entry at most the entries that are in both stand in the same order. -/
theorem common_comm_of_length_le {E : Type} [DecidableEq E] {xs ys : List E} (hx : xs.length ≤ 1)
    (hy : ys.length ≤ 1) : common xs ys = common ys xs := by
  rcases xs with _ | ⟨x, _ | ⟨_, _⟩⟩
  · simp [common]
  · rcases ys with _ | ⟨y, _ | ⟨_, _⟩⟩
    · simp [common]
    · by_cases hxy : x = y
      · rw [hxy]
      · rw [common_cons_of_not_mem (by simpa using hxy), common_cons_of_not_mem (by simpa using Ne.symm hxy)]
        rfl
    · simp at hy
  · simp at hx

namespace ChildBinding

variable {c : ChildBinding} {d : Document} {N : Niche} {v w : Value} {last : Value} {values : List Value}

/-- The binding and the document after some values. -/
def updates (c : ChildBinding) (d : Document) (values : List Value) : ChildBinding × Document :=
  values.foldl (fun s v => s.1.update s.2 v) (c, d)

/-- A binding shows a value in its hole: the entries are what the value comes to, the text says it if the value
is shown as a primitive, and the primitive that is remembered is the same then. -/
structure Tells (c : ChildBinding) (d : Document) (N : Niche) (v : Value) : Prop where
  placeholder : c.placeholder = N.placeholder
  text : c.text = N.text
  sole : v.IsSole = true
  entries : c.entries = v.entries N.text
  hosts : d.Hosts N c.entries
  data : ∀ w, v.line? = some w → v.text? = some (d.node N.text).data
  shown : ∀ w, v.line? = some w → ∃ u, c.shown = some u ∧ (u = w ∨ u.isSame w = true)
  idle : v.line? = none → c.shown = none

/-- What is the same as the value that is shown is the same as what is remembered. -/
theorem Tells.isSame (h : c.Tells d N last) {u : Value} (hlast : last.line? = some u) (hsame : u.isSame w = true) :
    c.shown.any (·.isSame w) = true := by
  obtain ⟨t, ht, htu⟩ := h.shown u hlast
  rw [ht, Option.any_some]
  rcases htu with rfl | htu
  · exact hsame
  · exact Value.isSame_trans htu hsame

/-- A value that is shown as a primitive. -/
theorem Tells.update_line (h : c.Tells d N last) (hsole : v.IsSole = true) (hv : v.line? = some w) :
    (c.update d v).1.Tells (c.update d v).2 N v ∧ d.LeavesAlone (c.update d v).2 N := by
  obtain ⟨htext, hsome⟩ := Value.text?_of_line hv
  have hentries : v.entries N.text = [.single N.text] := if_pos (by rw [hv]; rfl)
  have hnone : ¬ v.line? = none := by
    rw [hv]
    exact Option.some_ne_none w
  rw [update_of_line hv, showPrimitive]
  split
  · -- the text says this already
    rename_i hsame
    cases hlast : last.line? with
    | none =>
      rw [h.idle hlast] at hsame
      cases hsame
    | some t =>
      obtain ⟨u, hu, hut⟩ := h.shown t hlast
      rw [hu, Option.any_some] at hsame
      have huw : u.text? = w.text? := Value.text?_eq_of_isSame hsame
      have hutext : u.text? = t.text? := by
        rcases hut with rfl | hut
        · rfl
        · exact Value.text?_eq_of_isSame hut
      have hlasttext : last.text? = v.text? := by
        rw [(Value.text?_of_line hlast).1, ← hutext, huw, htext]
      refine ⟨⟨h.placeholder, h.text, hsole, ?_, h.hosts, fun _ _ => hlasttext ▸ h.data t hlast, ?_,
        fun hn => absurd hn hnone⟩, .refl d N⟩
      · rw [h.entries, hentries, Value.entries, if_pos (by rw [hlast]; rfl)]
      · intro w' hw'
        obtain rfl := Option.some.inj (hv.symm.trans hw')
        exact ⟨u, hu, .inr hsame⟩
  · obtain ⟨hset, hdata, hleaves⟩ := h.hosts.setText (w.text?.getD "")
    obtain ⟨hfirst, hshow, hmoved⟩ := Hosts.showBlocks (c := { c with shown := some w }) hset h.placeholder
      (List.nodup_singleton (Block.single N.text)) (fun e he => List.mem_singleton.1 he ▸ List.mem_cons_self ..)
      (common_comm_of_length_le (h.entries ▸ Value.length_entries_le h.sole N.text) (Nat.le_refl 1))
    rw [h.text]
    rw [h.text] at hfirst hshow hmoved
    rw [hfirst]
    refine ⟨⟨h.placeholder, rfl, hsole, hentries.symm, hshow, fun _ _ => ?_, ?_, fun hn => absurd hn hnone⟩,
      hleaves.trans (hmoved.leavesAlone hset.sound.forest)⟩
    · rw [hmoved.relinked.data, hdata, htext]
      obtain ⟨t, ht⟩ := Option.isSome_iff_exists.1 (htext ▸ hsome)
      rw [ht]
      rfl
    · intro w' hw'
      obtain rfl := Option.some.inj (hv.symm.trans hw')
      exact ⟨w, rfl, .inl rfl⟩

/-- A value that is shown as a block, or as nothing. -/
theorem Tells.update_blocks (h : c.Tells d N last) (hsole : v.IsSole = true) (hline : v.line? = none)
    {blocks : List Block} (hv : v.blocks? = some blocks) (hmem : ∀ e ∈ blocks, e ∈ N.blocks) :
    (c.update d v).1.Tells (c.update d v).2 N v ∧ d.LeavesAlone (c.update d v).2 N := by
  have hentries : v.entries N.text = blocks := by
    rw [Value.entries, if_neg (by rw [hline]; exact Bool.false_ne_true), hv]
    rfl
  have hlength : blocks.length ≤ 1 := hentries ▸ Value.length_entries_le hsole N.text
  have hnd : blocks.Nodup := by
    rcases blocks with _ | ⟨e, _ | ⟨e', rest⟩⟩
    · exact List.nodup_nil
    · exact List.nodup_singleton e
    · exact absurd hlength (Nat.not_le_of_lt (Nat.succ_lt_succ (Nat.succ_pos _)))
  obtain ⟨hfirst, hshow, hmoved⟩ := Hosts.showBlocks (c := { c with shown := none }) h.hosts h.placeholder hnd hmem
    (common_comm_of_length_le (h.entries ▸ Value.length_entries_le h.sole N.text) hlength)
  have hupdate : c.update d v = { c with shown := none }.showBlocks d blocks := by
    cases v with
    | null | block _ =>
      obtain rfl := Option.some.inj hv
      rfl
    | node n =>
      obtain rfl := Option.some.inj hv
      have hsolid : d.isFragment n = false :=
        (h.hosts.holds _ (hmem _ (List.mem_singleton_self _))).solid n (List.mem_singleton_self n)
      rw [update, blocksOf, hsolid]
      rfl
    | list items =>
      cases items with
      | nil =>
        obtain rfl := Option.some.inj hv
        rfl
      | cons item rest =>
        have hitem : item.isPrimitive = true := hsole
        rw [Value.blocks?, if_pos hitem] at hv
        cases hv
    | _ => cases hv
  have hnone : ∀ w, v.line? ≠ some w := fun w hw => by
    rw [hline] at hw
    cases hw
  rw [hupdate, hfirst]
  exact ⟨⟨h.placeholder, h.text, hsole, hentries.symm, hshow, fun w hw => absurd hw (hnone w),
    fun w hw => absurd hw (hnone w), fun _ => rfl⟩, hmoved.leavesAlone h.hosts.sound.forest⟩

/-- A value that the hole has no use for is passed over. -/
theorem Tells.update_unusable (h : c.Tells d N last) (hv : v.isUsable = false) :
    (c.update d v).1.Tells (c.update d v).2 N last ∧ d.LeavesAlone (c.update d v).2 N := by
  obtain ⟨hline, hblocks⟩ : v.line? = none ∧ v.blocks? = none := by
    simpa [Value.isUsable] using hv
  have hnotes : c.update d v = (c, d) ∨ ∃ notice, c.update d v = (c, d.note notice) := by
    cases v with
    | list items =>
      cases items with
      | nil => cases hblocks
      | cons item rest =>
        rw [Value.blocks?] at hblocks
        split at hblocks
        · rename_i hitem
          rw [Value.line?, if_pos hitem, Option.map_eq_none_iff] at hline
          rw [update, if_pos hitem, hline]
          exact .inr ⟨_, rfl⟩
        · cases hblocks
    | bool _ | number _ | string _ => cases hline
    | null | node _ | block _ => cases hblocks
    | _ => exact .inl rfl
  rcases hnotes with heq | ⟨notice, heq⟩
  · rw [heq]
    exact ⟨h, .refl d N⟩
  · rw [heq]
    have hs := h.hosts
    have hparent (m : NodeId) : (d.note notice).parent? m = d.parent? m := rfl
    have habove {p n : NodeId} (ha : (d.note notice).Above p n) : d.Above p n := ha.congr fun m _ => hparent m
    exact ⟨{ h with hosts := { hs with
        sound := hs.sound.note notice
        holds := fun e he => (hs.holds e he).relinked (relinked_note d notice)
        clear := fun e he n hn ha => hs.clear e he n hn (habove ha)
        stowed := fun e he hlive => ⟨(hs.stowed e he hlive).absent, (hs.stowed e he hlive).ready⟩ } },
      fun _ _ => rfl, fun _ => rfl, fun _ _ => rfl, rfl⟩

/-- A value of its own. -/
theorem Tells.update (h : c.Tells d N last) (hsole : v.IsSole = true) (hmem : ∀ e ∈ v.blocks?.getD [], e ∈ N.guests) :
    (c.update d v).1.Tells (c.update d v).2 N (if v.isUsable then v else last) ∧
      d.LeavesAlone (c.update d v).2 N := by
  cases hline : v.line? with
  | some w =>
    rw [if_pos (by rw [Value.isUsable, hline]; rfl)]
    exact h.update_line hsole hline
  | none =>
    cases hblocks : v.blocks? with
    | some blocks =>
      rw [hblocks] at hmem
      rw [if_pos (by rw [Value.isUsable, hline, hblocks]; rfl)]
      exact h.update_blocks hsole hline hblocks fun e he => List.mem_cons_of_mem _ (hmem e he)
    | none =>
      have hv : v.isUsable = false := by rw [Value.isUsable, hline, hblocks]; rfl
      rw [if_neg (by rw [hv]; exact Bool.false_ne_true)]
      exact h.update_unusable hv

/-- Values of its own, one after another. -/
theorem Tells.updates (h : c.Tells d N .null) (hsole : ∀ v ∈ values, v.IsSole = true)
    (hmem : ∀ v ∈ values, ∀ e ∈ v.blocks?.getD [], e ∈ N.guests) :
    (c.updates d values).1.Tells (c.updates d values).2 N (Value.lastUsable values) ∧
      d.LeavesAlone (c.updates d values).2 N := by
  induction values using List.reverseRecOn with
  | nil => exact ⟨h, .refl d N⟩
  | append_singleton values v ih =>
    obtain ⟨hbefore, hleaves⟩ := ih (fun u hu => hsole u (List.mem_append_left _ hu))
      fun u hu => hmem u (List.mem_append_left _ hu)
    have hv : v ∈ values ++ [v] := List.mem_append_right _ (List.mem_singleton_self v)
    have hlast : Value.lastUsable (values ++ [v])
        = if v.isUsable then v else Value.lastUsable values := by
      rw [Value.lastUsable, List.filter_append]
      split
      · rename_i husable
        rw [List.filter_cons_of_pos husable, List.filter_nil, List.getLastD_concat]
      · rename_i husable
        rw [List.filter_cons_of_neg husable, List.filter_nil, List.append_nil, Value.lastUsable]
    have hstep : c.updates d (values ++ [v])
        = (c.updates d values).1.update (c.updates d values).2 v := List.foldl_concat ..
    obtain ⟨hafter, hleaves'⟩ := hbefore.update (hsole v hv) (hmem v hv)
    rw [hstep, hlast]
    exact ⟨hafter, hleaves.trans hleaves'⟩

/-- A child hole is given values of its own one after another, none of them a list of blocks, the blocks in them
being used nowhere else. Then what stands in front of its placeholder is what the last value comes to that the
hole has a use for: nothing, a block with all its nodes in order, or the text of the hole, which says what the
value does. All other nodes are what and where they were. A primitive that is the same as that last value
changes nothing at all. -/
theorem updates_show_last (h : d.Hosts N []) (hsole : ∀ v ∈ values, v.IsSole = true)
    (hmem : ∀ v ∈ values, ∀ e ∈ v.blocks?.getD [], e ∈ N.guests) :
    let after := updates ⟨N.placeholder, N.text, none, []⟩ d values
    let last := Value.lastUsable values
    after.2.children N.container
        = N.ahead ++ (last.entries N.text).flatMap Block.nodes ++ N.placeholder :: N.behind ∧
      (last.line?.isSome = true → last.text? = some (after.2.node N.text).data) ∧
      d.LeavesAlone after.2 N ∧
      ∀ v w u, v.line? = some w → last.line? = some u → u.isSame w = true →
        after.1.update after.2 v = after := by
  intro after last
  have hstart : Tells ⟨N.placeholder, N.text, none, []⟩ d N .null :=
    ⟨rfl, rfl, rfl, rfl, h, (fun w hw => by cases hw), (fun w hw => by cases hw), fun _ => rfl⟩
  obtain ⟨htells, hleaves⟩ := hstart.updates hsole hmem
  have hrow := htells.hosts.row
  rw [htells.entries] at hrow
  refine ⟨hrow, fun hline => ?_, hleaves, fun v w u hv hu hsame => ?_⟩
  · obtain ⟨w, hw⟩ := Option.isSome_iff_exists.1 hline
    exact htells.data w hw
  · rw [update_of_line hv, showPrimitive, if_pos (htells.isSame hu hsame)]

/-- A paragraph in which a comment between two texts is the placeholder of a hole, with a group of two elements
in their fragment, an element that stands alone, and the text of the hole. -/
def commentInParagraph : Document :=
  let paragraph := (Document.empty.parse .html "<p>a<!---->b</p>").2
  let guests := ((paragraph.parse .html "<i></i><b></b>").2.create (.element "u" .html) "").2
  (Binding.ofHole guests ⟨3⟩ .child).2

/-- The hole at the comment. -/
def commentNiche : Niche where
  container := ⟨1⟩
  placeholder := ⟨3⟩
  text := ⟨9⟩
  guests := [.group ⟨0, ⟨5⟩, [⟨6⟩, ⟨7⟩]⟩, .single ⟨8⟩]
  ahead := [⟨2⟩]
  behind := [⟨4⟩]

theorem hosts_commentInParagraph : commentInParagraph.Hosts commentNiche [] := by
  have hsound : commentInParagraph.Sound :=
    (((Document.sound_empty.parse .html _).parse .html _).create _ _).create _ _
  have hclear : ∀ e ∈ commentNiche.blocks, ∀ n ∈ e.nodes, commentInParagraph.contains n commentNiche.container = false := by
    decide +kernel
  refine ⟨hsound, by decide +kernel, fun e he => ?_, by decide +kernel, by decide +kernel, fun e he n hn ha => ?_,
    by decide +kernel, by decide +kernel, by decide +kernel, fun e he _ => ⟨?_, fun g hg => .inl ?_⟩⟩
  · simp only [commentNiche, Niche.blocks, List.mem_cons, List.not_mem_nil, or_false] at he
    rcases he with rfl | rfl | rfl
    · exact holds_single (by decide +kernel) (by decide +kernel)
    · exact ⟨⟨by decide, by decide, .refl _, by decide, by decide⟩, by decide +kernel, by decide +kernel,
        by decide +kernel, by decide +kernel⟩
    · exact holds_single (by decide +kernel) (by decide +kernel)
  · have hcontains := (contains_iff hsound.forest (by decide +kernel)).2 ha
    rw [hclear e he n hn] at hcontains
    cases hcontains
  · revert e
    decide +kernel
  · subst hg
    simp only [commentNiche, Niche.blocks, List.mem_cons, List.not_mem_nil, or_false, Block.group.injEq,
      reduceCtorEq, false_or] at he
    subst he
    show commentInParagraph.children ⟨5⟩ = _
    decide +kernel

/-- A text, a group, the joined text of a list, a cell, a node, nothing, a list that cannot be joined, the group
again, and the first text twice. -/
def mixedValues : List Value :=
  [.string "x", .block (.group ⟨0, ⟨5⟩, [⟨6⟩, ⟨7⟩]⟩), .list [.bool true, .string "y"], .cell ⟨0⟩, .node ⟨8⟩, .null,
    .list [.string "z", .node ⟨8⟩], .block (.group ⟨0, ⟨5⟩, [⟨6⟩, ⟨7⟩]⟩), .string "x", .string "x"]

theorem updates_show_mixedValues :
    commentInParagraph.Hosts commentNiche [] ∧ (∀ v ∈ mixedValues, v.IsSole = true) ∧
      (∀ v ∈ mixedValues, ∀ e ∈ v.blocks?.getD [], e ∈ commentNiche.guests) ∧
      let after := updates ⟨⟨3⟩, ⟨9⟩, none, []⟩ commentInParagraph mixedValues
      after.2.children ⟨1⟩ = [⟨2⟩, ⟨9⟩, ⟨3⟩, ⟨4⟩] ∧ (after.2.node ⟨9⟩).data = "x" := by
  have hsole : ∀ v ∈ mixedValues, v.IsSole = true := by
    intro v hv
    simp only [mixedValues, List.mem_cons, List.not_mem_nil, or_false] at hv
    rcases hv with rfl | rfl | rfl | rfl | rfl | rfl | rfl | rfl | rfl | rfl <;> rfl
  have hmem : ∀ v ∈ mixedValues, ∀ e ∈ v.blocks?.getD [], e ∈ commentNiche.guests := by
    intro v hv
    simp only [mixedValues, List.mem_cons, List.not_mem_nil, or_false] at hv
    rcases hv with rfl | rfl | rfl | rfl | rfl | rfl | rfl | rfl | rfl | rfl <;> decide
  obtain ⟨hrow, htext, -, -⟩ := updates_show_last hosts_commentInParagraph hsole hmem
  exact ⟨hosts_commentInParagraph, hsole, hmem, hrow, (Option.some.inj (htext rfl)).symm⟩

end ChildBinding

end LiveMarkup
