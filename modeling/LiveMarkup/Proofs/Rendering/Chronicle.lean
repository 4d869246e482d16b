import LiveMarkup.Proofs.Document.Ownership
import LiveMarkup.Proofs.Rendering.Cloning
/-!
# Chronicles

What happens to a document is a list of deeds: instances are made, their bindings are brought up to date, what
is not held is let go of, blocks are mounted, and the host makes changes of its own (`Deed`). Such a list is a
chronicle if each deed is fair where it stands: templates are as they compile, only bindings of instances that
have been made are brought up to date, and the host does not put attributes of an instance on a node that is
none of its nodes or the other way round.

In a chronicle the estates of any two instances are disjoint, because a number is never given out twice, and no
attribute of the one gets on a node of the other (`Chronicle.ledger`). So an update of a binding disturbs no
node but those that have been made for its instance (`Chronicle.undisturbed`), and an instance that is made of a
template starts with the content of the template, however many have been made before (`Chronicle.made`).
-/

namespace LiveMarkup

open Markup (Namespace)
open Document (Estate)

/-! ### Deeds -/

/-- One thing that is done to a document. -/
inductive Deed where
  /-- The host changes the document to another one. -/
  | edit (d : Document)
  /-- An instance of a compiled template is made. -/
  | make (space : Namespace) (template : Template) (compiled : Compiled)
  /-- A binding is brought up to date with a value. -/
  | update (b : Binding) (value : Value)
  /-- What is not held is let go of. -/
  | release (custody : Custody)
  /-- A block is made the content of a container. -/
  | mount (container : NodeId) (custody : Custody) (block : Block)

/-- The document behind a deed. -/
def Deed.apply (d : Document) : Deed → Document
  | edit d' => d'
  | make space template compiled => (Instance.create d space template compiled).2
  | update b value => (b.update d value).2
  | release custody => d.release custody
  | mount container custody block =>
    let cleared := (d.setText container "").release custody
    let inserted := cleared.access block .insert
    inserted.2.append container inserted.1

/-- The document behind some deeds. -/
def Document.replay (d : Document) (log : List Deed) : Document :=
  log.foldl Deed.apply d

/-- An instance that has been made of a template, and the document in which it has been made. -/
structure Making where
  base : Document
  space : Namespace
  template : Template
  compiled : Compiled

namespace Making

/-- The instance as it is when it has been made. -/
def result (m : Making) : Instance :=
  (Instance.create m.base m.space m.template m.compiled).1

/-- The document behind it. -/
def document (m : Making) : Document :=
  (Instance.create m.base m.space m.template m.compiled).2

/-- The nodes and attributes that have been made for the instance. -/
def estate (m : Making) : Estate :=
  m.base.since m.document

/-- An instance is the one that has been made, whatever it shows by now. -/
structure Makes (m : Making) (i : Instance) : Prop where
  space : i.space = m.space
  template : i.template = m.template
  block : i.block = m.result.block
  sites : i.bindings.map Binding.site = m.result.bindings.map Binding.site

/-- Attributes of the instance are on its nodes, and on no others. -/
def Apart (m : Making) (d : Document) : Prop :=
  ∀ n, ∀ a ∈ (d.node n).attributes, m.estate.nodes n ↔ m.estate.attributes a

end Making

/-- The instance that is made by a deed. -/
def Deed.making? (d : Document) : Deed → Option Making
  | make space template compiled => some ⟨d, space, template, compiled⟩
  | edit _ | update .. | release _ | mount .. => none

/-- The instances that are made by some deeds, first one first. -/
def Document.makings (d : Document) : List Deed → List Making
  | [] => []
  | deed :: rest => (deed.making? d).toList ++ makings (deed.apply d) rest

/-- The instances that have been made since there was nothing. -/
def makings (log : List Deed) : List Making :=
  Document.empty.makings log

/-- The document that has come about. -/
def outcome (log : List Deed) : Document :=
  Document.empty.replay log

/-- Whether a deed is one that happens after some others. -/
def Deed.Fair (log : List Deed) : Deed → Prop
  | edit d => (outcome log).Grows d ∧ d.Listed ∧ ∀ m ∈ makings log, m.Apart d
  | make space template compiled => compiled = (template.compilation space).compiled
  | update b _ => ∃ m ∈ makings log, b.site ∈ m.result.bindings.map Binding.site
  | release _ | mount .. => True

/-- Each of some deeds is fair after those before it. -/
def Chronicle (log : List Deed) : Prop :=
  ∀ front deed back, log = front ++ deed :: back → deed.Fair front

variable {log more front back : List Deed} {deed : Deed} {ms : List Making} {m m' : Making}
  {d d' : Document} {own : Estate} {n : NodeId} {b : Binding} {value : Value} {space : Namespace}
  {template : Template} {compiled : Compiled}

theorem Document.makings_append (d : Document) (log more : List Deed) :
    d.makings (log ++ more) = d.makings log ++ (d.replay log).makings more := by
  induction log generalizing d with
  | nil => rfl
  | cons deed rest ih => rw [List.cons_append, makings, ih, ← List.append_assoc, makings, replay, replay,
      List.foldl_cons]

theorem makings_concat (log : List Deed) (deed : Deed) :
    makings (log ++ [deed]) = makings log ++ (deed.making? (outcome log)).toList := by
  rw [makings, Document.makings_append, Document.makings, Document.makings, List.append_nil]
  rfl

theorem outcome_concat (log : List Deed) (deed : Deed) :
    outcome (log ++ [deed]) = deed.apply (outcome log) :=
  List.foldl_concat ..

theorem makings_subset_append (log more : List Deed) : makings log ⊆ makings (log ++ more) := by
  rw [makings, makings, Document.makings_append]
  exact List.subset_append_left ..

/-! ### The estates of instances -/

/-- Some instances have been made one after another, and each of them has kept its attributes to its nodes. -/
structure Ledger (ms : List Making) (d : Document) : Prop where
  listed : d.Listed
  grown : ∀ m ∈ ms, m.document.Grows d
  ordered : ms.Pairwise fun m m' => m.document.Grows m'.base
  apart : ∀ m ∈ ms, m.Apart d

/-- What has been made before another instance is none of its estate. -/
theorem Making.disjoint_of_grows (h : m.document.Grows m'.base) :
    (∀ n, m.estate.nodes n → ¬ m'.estate.nodes n) ∧ ∀ a, m.estate.attributes a → ¬ m'.estate.attributes a :=
  ⟨fun _ hn hn' => hn'.1 (h.has hn.2), fun _ ha ha' => ha'.1 (h.hasAttribute ha.2)⟩

/-- The first node that has been made for an instance is the fragment of its content. -/
theorem Making.nodes_next (m : Making) : m.estate.nodes m.base.next := by
  obtain ⟨hnew, hhas⟩ := Document.unmade_of_descend?
    (show (m.base.createFragment m.compiled.content).2.descend? m.base.next [] = some m.base.next from rfl)
  have hbound : (m.base.createFragment m.compiled.content).2.Confined _ m.base.unmade :=
    Document.confined_ofHoles _ (m.base.createFragment m.compiled.content).1 m.compiled.holes
  have hblock : Document.Confined _ m.document m.base.unmade := Document.confined_blockOfOwn ..
  exact ⟨hnew, hblock.grows.has (hbound.grows.has hhas)⟩

namespace Ledger

/-- No two instances are the same. -/
theorem nodup (h : Ledger ms d) : ms.Nodup := by
  refine h.ordered.imp fun {m m'} hgrows heq => ?_
  subst heq
  exact m.nodes_next.1 (hgrows.has m.nodes_next.2)

/-- No node and no attribute has been made for two instances. -/
theorem disjoint (h : Ledger ms d) (hm : m ∈ ms) (hm' : m' ∈ ms) (hne : m ≠ m') :
    (∀ n, m.estate.nodes n → ¬ m'.estate.nodes n) ∧ ∀ a, m.estate.attributes a → ¬ m'.estate.attributes a := by
  have hsymm : Std.Symm fun m m' : Making => m.document.Grows m'.base ∨ m'.document.Grows m.base :=
    ⟨fun _ _ h => h.symm⟩
  have hordered : ms.Pairwise fun m m' => m.document.Grows m'.base ∨ m'.document.Grows m.base :=
    h.ordered.imp .inl
  rcases hordered.forall hm hm' hne with hbefore | hafter
  · exact Making.disjoint_of_grows hbefore
  · obtain ⟨hnodes, hattributes⟩ := Making.disjoint_of_grows hafter
    exact ⟨fun n hn hn' => hnodes n hn' hn, fun a ha ha' => hattributes a ha' ha⟩

/-- Attributes come to nodes of the same instance, or to nodes of none. -/
theorem relists (h : Ledger ms d) (hr : d.Relists d' own)
    (hown : ∀ m ∈ ms, ∀ n a, own.nodes n → own.attributes a → (m.estate.nodes n ↔ m.estate.attributes a)) :
    Ledger ms d' where
  listed := hr.listed h.listed
  grown m hm := (h.grown m hm).trans hr.grows
  ordered := h.ordered
  apart m hm n a ha := by
    rcases hr.lists n a ha with hold | ⟨hn, hown', -⟩
    · exact h.apart m hm n a hold
    · exact hown m hm n a hn hown'

/-- No attribute comes to any node. -/
theorem still (h : Ledger ms d) (hr : d.Relists d' own) (hnone : ∀ a, ¬ own.attributes a) : Ledger ms d' :=
  h.relists hr fun _ _ _ a _ ha => absurd ha (hnone a)

theorem make (h : Ledger ms d) (space : Namespace) (template : Template) (compiled : Compiled) :
    Ledger (ms ++ [⟨d, space, template, compiled⟩]) (Instance.create d space template compiled).2 := by
  have hconfined := Document.confined_createInstance d space template compiled
  have hold := h.relists hconfined.toRelists fun m hm n a hn ha =>
    ⟨fun hown => absurd ((h.grown m hm).has hown.2) hn,
      fun hown => absurd ((h.grown m hm).hasAttribute hown.2) ha⟩
  refine ⟨hold.listed, ?_, ?_, ?_⟩
  · refine List.forall_mem_append.2 ⟨hold.grown, fun m hm => ?_⟩
    rw [List.mem_singleton.1 hm]
    exact .refl _
  · refine List.pairwise_append.2 ⟨h.ordered, List.pairwise_singleton .., fun m hm m' hm' => ?_⟩
    rw [List.mem_singleton.1 hm']
    exact h.grown m hm
  · refine List.forall_mem_append.2 ⟨hold.apart, fun m hm n a ha => ?_⟩
    rw [List.mem_singleton.1 hm]
    rcases hconfined.lists n a ha with hmem | ⟨hn, hnew, hhas⟩
    · exact ⟨fun hown => absurd (Document.has_of_mem_attributes hmem) hown.1,
        fun hown => absurd (h.listed n a hmem) hown.1⟩
    · exact ⟨fun _ => ⟨hnew, hhas⟩, fun _ => ⟨hn, Document.has_of_mem_attributes ha⟩⟩

/-- An update of a binding is confined to the estate of its instance. -/
theorem confined_update (h : Ledger ms d) (hm : m ∈ ms)
    (hb : b.site ∈ m.result.bindings.map Binding.site) (value : Value) :
    d.Confined (b.update d value).2 m.estate := by
  have hwithin : b.Within m.estate := by
    obtain ⟨b', hb', hsite⟩ := List.mem_map.1 hb
    have hwithin' : b'.Within m.estate := Document.within_createInstance _ _ _ _ b' hb'
    refine .of_site ?_
    rw [← hsite]
    exact ⟨fun n hn => hwithin'.nodes n (Binding.nodes_site b' ▸ hn),
      fun a ha => hwithin'.attributes a (Binding.attributes_site b' ▸ ha)⟩
  exact Binding.confined_update hwithin
    (fun a ha => (h.grown m hm).hasAttribute (hwithin.attributes a ha).2)
    (fun n hn a ha => (h.apart m hm n a ha).1 (hwithin.nodes n hn)) value

/-- A node that is none of an instance is not disturbed by it. -/
theorem undisturbed (h : Ledger ms d) (hm : m ∈ ms)
    (hb : b.site ∈ m.result.bindings.map Binding.site) (value : Value) (hn : d.Has n)
    (hout : ¬ m.estate.nodes n) : d.Undisturbed (b.update d value).2 n :=
  (h.confined_update hm hb value).undisturbed h.listed hn hout fun a ha hown =>
    hout ((h.apart m hm n a ha).2 hown)

theorem update (h : Ledger ms d) (hm : m ∈ ms) (hb : b.site ∈ m.result.bindings.map Binding.site)
    (value : Value) : Ledger ms (b.update d value).2 := by
  refine h.relists (h.confined_update hm hb value).toRelists fun m' hm' n a hn ha => ?_
  by_cases hne : m = m'
  · rw [← hne]
    exact ⟨fun _ => ha, fun _ => hn⟩
  · obtain ⟨hnodes, hattributes⟩ := h.disjoint hm hm' hne
    exact ⟨fun hn' => absurd hn' (hnodes n hn), fun ha' => absurd ha' (hattributes a ha)⟩

end Ledger

/-! ### Letting go and mounting -/

theorem Document.relists_release (d : Document) (custody : Custody) : d.Relists (d.release custody) own where
  grows := (evolves_release d custody).grows
  lists n a ha := by
    refine .inl ?_
    by_cases hn : d.Has n
    · rw [release_eq, node_keepOnly hn] at ha
      split at ha
      · exact ha
      · cases ha
    · rwa [release_eq, node_keepOnly_of_not_has hn] at ha

theorem Document.relists_mount (d : Document) (container : NodeId) (custody : Custody) (block : Block) :
    d.Relists ((Deed.mount container custody block).apply d) ⟨(· = container), fun _ => False⟩ := by
  have hclear : d.Confined (d.setText container "") ⟨(· = container), fun _ => False⟩ :=
    confined_setText (n := container) rfl d ""
  exact (hclear.toRelists.trans (relists_release ..)).trans (shifts_insert _ container block none).confined.toRelists

/-! ### Chronicles -/

namespace Chronicle

theorem nil : Chronicle [] := fun front _ back h => by
  cases front <;> cases h

theorem of_append (h : Chronicle (log ++ more)) : Chronicle log := fun front deed back hlog => by
  refine h front deed (back ++ more) ?_
  rw [hlog, List.append_assoc, List.cons_append]

theorem concat (h : Chronicle log) (hdeed : deed.Fair log) : Chronicle (log ++ [deed]) := by
  intro front other back hlog
  rcases List.eq_nil_or_concat back with rfl | ⟨back', last, rfl⟩
  · obtain ⟨rfl, hlast⟩ := List.append_inj' hlog rfl
    cases hlast
    exact hdeed
  · have hsplit : log ++ [deed] = (front ++ other :: back') ++ [last] := by
      rw [hlog, List.concat_eq_append, List.append_assoc, List.cons_append]
    exact h front other back' (List.append_inj' hsplit rfl).1

/-- In a chronicle each instance keeps to its estate. -/
theorem ledger (h : Chronicle log) : Ledger (makings log) (outcome log) := by
  induction log using List.reverseRecOn with
  | nil => exact ⟨Document.owned_empty.listed, fun _ hm => (List.not_mem_nil hm).elim, .nil,
      fun _ hm => (List.not_mem_nil hm).elim⟩
  | append_singleton log deed ih =>
    have hledger := ih h.of_append
    have hfair := h log deed [] rfl
    rw [makings_concat, outcome_concat]
    -- a change by the host has to keep the ledger to be fair; all that is done besides keeps it by itself
    cases deed with
    | edit d =>
      obtain ⟨hgrows, hlisted, hapart⟩ := hfair
      rw [Deed.making?, Option.toList_none, List.append_nil]
      exact ⟨hlisted, fun m hm => (hledger.grown m hm).trans hgrows, hledger.ordered, hapart⟩
    | make space template compiled => exact hledger.make space template compiled
    | update b value =>
      obtain ⟨m, hm, hb⟩ := hfair
      rw [Deed.making?, Option.toList_none, List.append_nil]
      exact hledger.update hm hb value
    | release custody =>
      rw [Deed.making?, Option.toList_none, List.append_nil]
      have hrelists : (outcome log).Relists ((outcome log).release custody) ⟨fun _ => False, fun _ => False⟩ :=
        Document.relists_release ..
      exact hledger.still hrelists fun _ => id
    | mount container custody block =>
      rw [Deed.making?, Option.toList_none, List.append_nil]
      exact hledger.still (Document.relists_mount ..) fun _ => id

/-- An instance that is made of a template reads as the content of the template, whatever has been done before,
and disturbs nothing that is there. -/
theorem made (h : Chronicle (front ++ .make space template compiled :: back)) :
    let m : Making := ⟨outcome front, space, template, compiled⟩
    compiled = (template.compilation space).compiled ∧
      m.result.block.nodes.flatMap m.document.trees = compiled.content ∧
      ∀ n, (outcome front).Has n → (outcome front).Undisturbed m.document n := by
  have hlisted := h.of_append.ledger.listed
  have hfair : (Deed.make space template compiled).Fair front := h front _ back rfl
  refine ⟨hfair, Document.read_createInstance hlisted space template compiled, fun n hn => ?_⟩
  exact (Document.confined_createInstance ..).undisturbed_of_unmade hlisted hn

/-- A binding is brought up to date for one of the instances that have been made, and nothing is disturbed
outside of the estate of this instance, so no node of another one. -/
theorem undisturbed (h : Chronicle (front ++ .update b value :: back)) :
    ∃ m ∈ makings front, b.site ∈ m.result.bindings.map Binding.site ∧
      (∀ n, (outcome front).Has n → ¬ m.estate.nodes n →
        (outcome front).Undisturbed (b.update (outcome front) value).2 n) ∧
      ∀ m' ∈ makings front, m' ≠ m → ∀ n, m'.estate.nodes n →
        (outcome front).Undisturbed (b.update (outcome front) value).2 n := by
  have hledger := h.of_append.ledger
  obtain ⟨m, hm, hb⟩ : (Deed.update b value).Fair front := h front _ back rfl
  have hout : ∀ n, (outcome front).Has n → ¬ m.estate.nodes n →
      (outcome front).Undisturbed (b.update (outcome front) value).2 n :=
    fun n hn hnot => hledger.undisturbed hm hb value hn hnot
  refine ⟨m, hm, hb, hout, fun m' hm' hne n hn => ?_⟩
  exact hout n ((hledger.grown m' hm').has hn.2) ((hledger.disjoint hm' hm hne).1 n hn)

end Chronicle

end LiveMarkup
