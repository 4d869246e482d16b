import LiveMarkup.Proofs.Rendering.Mounting
/-!
# Nodes that go from one container to another

Single nodes are rendered into several containers by turns. Each container remembers which node it has been
given last, and does nothing when it is given that one again. A node that has gone to another container in
the meantime is not fetched back by that: the container stays empty (`Renderer.children_renderNodes`). In
all other cases the node that has been rendered is the only child of its container.
-/

namespace LiveMarkup

namespace Document

variable {d d' : Document} {c n : NodeId} {containers nodes held : List NodeId}

/-- Some nodes can become the content of some containers, in any order: none of them contains a container.
-/
structure Welcomes (d : Document) (containers nodes : List NodeId) : Prop where
  sound : d.Sound
  has_container : ∀ c ∈ containers, d.Has c
  inner : ∀ c ∈ containers, d.leaf? c = none
  has : ∀ n ∈ nodes, d.Has n
  solid : ∀ n ∈ nodes, d.isFragment n = false
  clear : ∀ c ∈ containers, ∀ n ∈ nodes, ¬ d.Above c n

namespace Welcomes

theorem emptied (h : d.Welcomes containers nodes) (he : Emptied d d' c held) :
    d'.Welcomes containers nodes where
  sound := he.sound
  has_container a ha := he.has (h.has_container a ha)
  inner a ha := by
    rw [leaf?, he.kind]
    exact h.inner a ha
  has n hn := he.has (h.has n hn)
  solid n hn := by
    rw [isFragment, he.kind]
    exact h.solid n hn
  clear a ha n hn habove :=
    h.clear a ha n hn (above_of_lost (fun n => (he.parent? n).imp_right And.right) habove)

/-- Putting a node into an empty container. -/
theorem inserted (h : d.Welcomes containers nodes) (hc : c ∈ containers) (hn : n ∈ nodes)
    (hrow : d.children c = []) : Inserted d (d.insertBefore c n none) c [n] [] [] := by
  have hadoptable : d.Adoptable c n :=
    ⟨h.has_container c hc, h.has n hn, h.inner c hc, h.solid n hn, h.clear c hc n hn⟩
  have hinsertable : Insertable d c [n] [] [] :=
    ⟨h.sound.forest, hrow, List.forall_mem_singleton.2 hadoptable, List.nodup_singleton n⟩
  exact inserted_insertBefore hinsertable

theorem mounted (h : d.Welcomes containers nodes) (hn : n ∈ nodes) (hins : Inserted d d' c [n] [] []) :
    d'.Welcomes containers nodes where
  sound := ⟨hins.forest, h.sound.owned.relinked hins.relinked⟩
  has_container a ha := hins.relinked.has.2 (h.has_container a ha)
  inner a ha := (hins.relinked.leaf? a).trans (h.inner a ha)
  has m hm := hins.relinked.has.2 (h.has m hm)
  solid m hm := (hins.relinked.isFragment m).trans (h.solid m hm)
  clear a ha m hm habove := by
    -- what is above a container has not been moved, for it is none of the nodes
    refine h.clear a ha m hm (Above.congr (fun k hk => ?_) habove)
    rw [hins.parent?, if_neg]
    exact fun hkn => h.clear a ha n hn (List.mem_singleton.1 hkn ▸ hk)

end Welcomes

end Document

namespace Renderer

open Document

variable {r : Renderer} {c n : NodeId} {containers nodes : List NodeId}
  {past : List (NodeId × NodeId)}

/-- Renders nodes into containers one after another, from the last call of the list to the first. -/
def renderNodes (r : Renderer) : List (NodeId × NodeId) → Renderer
  | [] => r
  | (c, n) :: past => ((r.renderNodes past).render c (.node n)).2

/-- Whether a node has been put into another container since it was put into `c`, where the calls are given
last one first. A call that repeats the last node of its container puts nothing anywhere. -/
def takenFrom (c n : NodeId) : List (NodeId × NodeId) → Bool
  | [] => false
  | (c', m) :: past =>
    if past.lookup c' = some m then takenFrom c n past
    else if c' = c then false
    else m == n || takenFrom c n past

theorem cacheOf_setCacheOf_of_ne (r : Renderer) {c a : NodeId} (cache : Cache) (h : a ≠ c) :
    (r.setCacheOf c cache).cacheOf a = r.cacheOf a := by
  have hlookup : ∀ l : List (NodeId × Cache), (l.filter (·.1 != c)).lookup a = l.lookup a := by
    intro l
    induction l with
    | nil => rfl
    | cons entry rest ih =>
      obtain ⟨k, cache'⟩ := entry
      by_cases hk : k = c
      · subst hk
        rw [List.filter_cons_of_neg (by simp), ih, List.lookup_cons, beq_false_of_ne h]
      · rw [List.filter_cons_of_pos (by simpa using hk), List.lookup_cons, List.lookup_cons, ih]
  rw [cacheOf, setCacheOf, List.lookup_cons, beq_false_of_ne h]
  dsimp only
  rw [otherContainers, hlookup, cacheOf]

/-- A container that is given another node than before forgets all that it has shown, and the other
containers remember what they did. -/
theorem root_cacheOf_render_node (r : Renderer) (c n a : NodeId) :
    ((r.render c (.node n)).2.cacheOf a).root
      = if a = c then some (.single n) else (r.cacheOf a).root := by
  split
  · rename_i h
    rw [h, render_node, root_render_block]
  · rename_i h
    rw [render, mount]
    split
    · rw [cacheOf_setCacheOf_of_ne _ _ h]
    · rw [cacheOf_setCacheOf_of_ne _ _ h]
      rfl

/-- Where some nodes are after the calls in `past`, last one first. -/
structure Rounds (r : Renderer) (containers nodes : List NodeId) (past : List (NodeId × NodeId)) : Prop where
  welcomes : r.document.Welcomes containers nodes
  held : containers ++ nodes ⊆ r.hostNodes
  root : ∀ c ∈ containers, ∀ n ∈ nodes,
    (r.cacheOf c).root = some (.single n) ↔ past.lookup c = some n
  row : ∀ c ∈ containers, ∀ n ∈ nodes, past.lookup c = some n →
    r.document.children c = if takenFrom c n past then [] else [n]

/-- A node that its container has been given last is rendered without doing anything. -/
theorem document_render_again (h : (r.cacheOf c).root = some (.single n)) :
    (r.render c (.node n)).2.document = r.document := by
  rw [render, mount, if_pos h]
  rfl

theorem lookup_cons_iff {c a n m : NodeId} : ((c, n) :: past).lookup a = some m ↔
    a = c ∧ n = m ∨ a ≠ c ∧ past.lookup a = some m := by
  rw [List.lookup_cons]
  by_cases h : a = c
  · simp [h]
  · simp [h, beq_false_of_ne h]

theorem Rounds.root_cons (h : r.Rounds containers nodes past) (c n : NodeId) :
    ∀ a ∈ containers, ∀ m ∈ nodes, ((r.render c (.node n)).2.cacheOf a).root = some (.single m) ↔
      ((c, n) :: past).lookup a = some m := by
  intro a ha m hm
  rw [root_cacheOf_render_node, lookup_cons_iff]
  split
  · rename_i hac
    simp [hac]
  · rename_i hac
    rw [h.root a ha m hm]
    simp [hac]

/-- A node is rendered again into the container that has been given it last. -/
theorem Rounds.again (h : r.Rounds containers nodes past) (hc : c ∈ containers) (hn : n ∈ nodes)
    (hlast : past.lookup c = some n) : (r.render c (.node n)).2.Rounds containers nodes ((c, n) :: past) := by
  have hdocument := document_render_again ((h.root c hc n hn).2 hlast)
  refine ⟨hdocument ▸ h.welcomes, (hostNodes_render_block r c (.single n)) ▸ h.held, h.root_cons c n,
    fun a ha m hm hlookup => ?_⟩
  have hpast : past.lookup a = some m := by
    rcases lookup_cons_iff.1 hlookup with ⟨rfl, rfl⟩ | ⟨-, hpast⟩
    · exact hlast
    · exact hpast
  rw [hdocument, h.row a ha m hm hpast, takenFrom, if_pos hlast]

/-- A node is rendered into a container that has not been given it last: the container is emptied and gets
the node, which is taken from where it was. -/
theorem Rounds.exchange (h : r.Rounds containers nodes past) (hc : c ∈ containers) (hn : n ∈ nodes)
    (hlast : past.lookup c ≠ some n) : (r.render c (.node n)).2.Rounds containers nodes ((c, n) :: past) := by
  have hroot : (r.cacheOf c).root ≠ some (.single n) := fun he => hlast ((h.root c hc n hn).1 he)
  have hdocument : (r.render c (.node n)).2.document = _ := document_mount hroot
  generalize hcustody : (r.custody c none).holding ((Block.single n).held ++ (r.cacheOf c).held) = custody
    at hdocument
  have hself : c ∈ custody.nodes := by
    rw [← hcustody]
    exact List.mem_append_right _ (List.mem_append_left _ (List.mem_append_left _
      (List.mem_singleton_self c)))
  have hhost : r.hostNodes ⊆ custody.nodes := by
    rw [← hcustody]
    exact fun n hn => List.mem_append_right _ (List.mem_append_left _ (List.mem_append_right _ hn))
  have hemptied := emptied_setText h.welcomes.sound (h.welcomes.has_container c hc)
    (h.welcomes.inner c hc) hself hhost
  have hwelcomes := h.welcomes.emptied hemptied
  generalize (r.document.setText c "").release custody = d at *
  have hins : Inserted d (d.insertBlock c (.single n) none) c [n] [] [] :=
    hwelcomes.inserted hc hn hemptied.row
  rw [← hdocument] at hins
  refine ⟨hwelcomes.mounted hn hins, (hostNodes_render_block r c (.single n)) ▸ h.held, h.root_cons c n,
    fun a ha m hm hlookup => ?_⟩
  rw [takenFrom, if_neg hlast]
  rcases lookup_cons_iff.1 hlookup with ⟨rfl, rfl⟩ | ⟨hne, hpast⟩
  · rw [if_pos rfl]
    exact hins.children_self
  · rw [if_neg hne.symm, hins.children_of_ne a hne, hemptied.rows a (h.held (List.mem_append_left _ ha))
      (h.welcomes.has_container a ha) hne, h.row a ha m hm hpast]
    by_cases hnm : n = m
    · subst hnm
      simp [apply_ite]
    · cases takenFrom a m past <;> simp [hnm, Ne.symm hnm]

theorem rounds_renderNodes (h : r.Rounds containers nodes [])
    (hpast : ∀ call ∈ past, call.1 ∈ containers ∧ call.2 ∈ nodes) :
    (r.renderNodes past).Rounds containers nodes past := by
  induction past with
  | nil => exact h
  | cons call past ih =>
    obtain ⟨c, n⟩ := call
    obtain ⟨⟨hc, hn⟩, hpast⟩ := List.forall_mem_cons.1 hpast
    by_cases hlast : past.lookup c = some n
    · exact (ih hpast).again hc hn hlast
    · exact (ih hpast).exchange hc hn hlast

/-- Nothing has been rendered yet. -/
theorem Welcomes.rounds (h : r.document.Welcomes containers nodes)
    (hheld : containers ++ nodes ⊆ r.hostNodes)
    (hroot : ∀ c ∈ containers, ∀ n ∈ nodes, (r.cacheOf c).root ≠ some (.single n)) :
    r.Rounds containers nodes [] :=
  ⟨h, hheld, fun c hc n hn => ⟨fun he => absurd he (hroot c hc n hn), fun he => by cases he⟩,
    fun _ _ _ _ he => by cases he⟩

/-- After a node has been rendered into a container it is the only child of it, unless the container had been
given this node last and another one has taken it since. A node that its container has been given last is
rendered without a change, so the container stays empty then. -/
theorem children_renderNodes (hwelcomes : r.document.Welcomes containers nodes)
    (hheld : containers ++ nodes ⊆ r.hostNodes)
    (hroot : ∀ c ∈ containers, ∀ n ∈ nodes, (r.cacheOf c).root ≠ some (.single n)) (c n : NodeId)
    (past : List (NodeId × NodeId)) (hpast : ∀ call ∈ (c, n) :: past, call.1 ∈ containers ∧ call.2 ∈ nodes) :
    let before := r.renderNodes past
    let after := r.renderNodes ((c, n) :: past)
    (before.render c (.node n)).1 = .ok () ∧
    after.document.children c = (if past.lookup c = some n ∧ takenFrom c n past then [] else [n]) ∧
      (past.lookup c = some n → after.document = before.document) := by
  intro before after
  have hstart := Welcomes.rounds hwelcomes hheld hroot
  obtain ⟨⟨hc, hn⟩, hrest⟩ := List.forall_mem_cons.1 hpast
  have hbefore := rounds_renderNodes hstart hrest
  have hlookup : ((c, n) :: past).lookup c = some n := lookup_cons_iff.2 (.inl ⟨rfl, rfl⟩)
  refine ⟨rfl, ?_, fun hlast => document_render_again ((hbefore.root c hc n hn).2 hlast)⟩
  rw [(rounds_renderNodes hstart hpast).row c hc n hn hlookup, takenFrom]
  by_cases hlast : past.lookup c = some n
  · simp [hlast]
  · simp [hlast]

/-- Two elements and a text that stands alone. -/
def twoContainers : Renderer :=
  { oneElement with
    document := ((oneElement.document.create (.element "aside" .html) "").2.create .text "x").2
    hostNodes := [⟨0⟩, ⟨1⟩, ⟨2⟩] }

theorem welcomes_twoContainers : twoContainers.document.Welcomes [⟨0⟩, ⟨1⟩] [⟨2⟩] where
  sound := (sound_oneElement.document.create _ _).create _ _
  has_container := by decide
  inner := by decide
  has := by decide
  solid := by decide
  clear c hc n hn ha := by
    obtain rfl := List.mem_singleton.1 hn
    have hroots : ∀ c ∈ [⟨0⟩, ⟨1⟩], twoContainers.document.parent? c = none := by decide
    obtain rfl := ha.eq_of_root (hroots c hc)
    exact absurd hc (by decide)

theorem children_renderNodes_twoContainers :
    (twoContainers.renderNodes [(⟨0⟩, ⟨2⟩), (⟨0⟩, ⟨2⟩), (⟨1⟩, ⟨2⟩)]).document.children ⟨0⟩ = [⟨2⟩] ∧
      (twoContainers.renderNodes [(⟨0⟩, ⟨2⟩), (⟨1⟩, ⟨2⟩), (⟨0⟩, ⟨2⟩)]).document.children ⟨0⟩ = [] := by
  have key := children_renderNodes welcomes_twoContainers (by decide) (by decide)
  exact ⟨(key ⟨0⟩ ⟨2⟩ [_, _] (by decide)).2.1.trans rfl, (key ⟨0⟩ ⟨2⟩ [_, _] (by decide)).2.1.trans rfl⟩

/-- A text is rendered into one element, then into another one, and then into the first one again, which has
no children afterwards. -/
theorem not_children_render_back :
    let shared := twoContainers.renderNodes [(⟨1⟩, ⟨2⟩), (⟨0⟩, ⟨2⟩)]
    twoContainers.document.Welcomes [⟨0⟩, ⟨1⟩] [⟨2⟩] ∧
      (shared.render ⟨0⟩ (.node ⟨2⟩)).1 = .ok () ∧
      (shared.render ⟨0⟩ (.node ⟨2⟩)).2.document.children ⟨0⟩ ≠ [⟨2⟩] := by
  intro shared
  have hrounds : (twoContainers.renderNodes [(⟨0⟩, ⟨2⟩), (⟨1⟩, ⟨2⟩), (⟨0⟩, ⟨2⟩)]).Rounds [⟨0⟩, ⟨1⟩] [⟨2⟩] _ :=
    rounds_renderNodes (Welcomes.rounds welcomes_twoContainers (by decide) (by decide)) (by decide)
  refine ⟨welcomes_twoContainers, rfl, fun he => ?_⟩
  have hrow := hrounds.row ⟨0⟩ (by decide) ⟨2⟩ (by decide) rfl
  rw [renderNodes, he] at hrow
  exact absurd hrow (by decide)

end Renderer

end LiveMarkup
