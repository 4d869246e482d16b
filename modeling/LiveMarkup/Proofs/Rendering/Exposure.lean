import LiveMarkup.Proofs.Document.Counting
import LiveMarkup.Proofs.Rendering.Revision
import LiveMarkup.Proofs.Rendering.Surroundings
import LiveMarkup.Proofs.Rendering.Vacancy
/-!
# An exhibit that is in place

A node exposes an exhibit if its children are what the exhibit comes to, up to the order of attributes, and
the bindings have what they need (`Document.Exposes`). When one entry of the exhibit is exchanged and the
document is changed accordingly, the node exposes the new exhibit (`Exposes.amend`). The changes that a
binding makes are of this sort, and none of them moves anything but texts (`Document.Steady`).
-/

namespace LiveMarkup

open Exhibit

namespace Document

variable {d d' d'' : Document} {c m n p : NodeId} {fixed nodes : List NodeId}

/-- Below a node, nothing but texts has been moved, and not even those texts that are fixed. -/
def Steady (d d' : Document) (c : NodeId) (fixed : List NodeId) : Prop :=
  ∀ m p, d.Above p c → d.parent? m = some p → d.kind m ≠ .text ∨ m ∈ fixed →
    d'.kind m = d.kind m ∧ d'.parent? m = some p

theorem Steady.refl (d : Document) (c : NodeId) (fixed : List NodeId) : d.Steady d c fixed :=
  fun _ _ _ hp _ => ⟨rfl, hp⟩

theorem kind_ne_text_of_parent (hf : d.Forest) (hp : d.parent? m = some p) : d.kind p ≠ .text := by
  intro hk
  have hinner := hf.inner hp
  rw [leaf?, hk] at hinner
  cases hinner

theorem Steady.above (h : d.Steady d' c fixed) (hf : d.Forest) (hp : d.kind p ≠ .text)
    (ha : d.Above p c) : d'.Above p c := by
  have hall : ∀ a, d.Above p a → d.Above a c → d'.Above p a := by
    intro a hpa
    induction hpa with
    | self => exact fun _ => .self
    | @up m a hpm hma ih =>
      intro hac
      refine .up (ih ((Above.of_parent hma).trans hac)) (h m a hac hma (.inl ?_)).2
      cases hpm with
      | self => exact hp
      | up _ hm => exact kind_ne_text_of_parent hf hm
  exact hall c ha .self

theorem Steady.trans (h : d.Steady d' c fixed) (h' : d'.Steady d'' c fixed) (hf : d.Forest) :
    d.Steady d'' c fixed := by
  intro m p ha hp hm
  obtain ⟨hkind, hparent⟩ := h m p ha hp hm
  obtain ⟨hkind', hparent'⟩ := h' m p (h.above hf (kind_ne_text_of_parent hf hp) ha) hparent
    (by rwa [hkind])
  exact ⟨hkind'.trans hkind, hparent'⟩

theorem Kept.of_above (hf : d.Forest) (ha : d.Above p c) (hc : d.Kept nodes c) : d.Kept nodes p := by
  induction ha with
  | self => exact hc
  | up _ hp ih => exact ih (.child hc (hf.mem_of_parent hp))

/-- Letting go of what is not held does not move anything below a node that is held. -/
theorem steady_of_keeps (h : Keeps d d' nodes) (hf : d.Forest) (hf' : d'.Forest) (hc : c ∈ nodes) :
    d.Steady d' c fixed := by
  intro m p ha hp _
  have hmem := hf.mem_of_parent hp
  have hsame := h.same p (has_of_mem_children hmem) (.of_above hf ha (.root hc))
  exact ⟨h.kind m (has_of_parent? hp), hf'.parent_of_mem (hsame.children ▸ hmem)⟩

theorem steady_of_parent? (hkind : ∀ m, d.Has m → d'.kind m = d.kind m)
    (hparent : ∀ m, m ≠ n → d'.parent? m = d.parent? m) (hn : d.kind n = .text) (hfixed : n ∉ fixed) :
    d.Steady d' c fixed := by
  intro m p _ hp hm
  refine ⟨hkind m (has_of_parent? hp), (hparent m ?_).trans hp⟩
  rintro rfl
  exact hm.elim (fun hm => hm hn) hfixed

end Document

/-- What has been made and stands nowhere yet, and the fragments from which everything has been taken. -/
structure Stock where
  exhibits : List Exhibit
  emptied : List NodeId

namespace Stock

/-- Nothing has been made that is not in place. -/
def none : Stock :=
  ⟨[], []⟩

/-- All that has to be held for a stock to stay as it is. -/
def held (s : Stock) : List NodeId :=
  (piecesAll s.exhibits).flatMap (fun y => y.1.held) ++ (entriesAll s.exhibits).flatMap (fun e => e.1.held)
    ++ s.emptied

theorem held_subset {s : Stock} {nodes : List NodeId} : s.held ⊆ nodes ↔
    ((∀ y ∈ piecesAll s.exhibits, y.1.held ⊆ nodes) ∧ ∀ e ∈ entriesAll s.exhibits, e.1.held ⊆ nodes) ∧
      s.emptied ⊆ nodes := by
  have hflat : ∀ {α : Type} (l : List α) (f : α → List NodeId), l.flatMap f ⊆ nodes ↔ ∀ a ∈ l, f a ⊆ nodes :=
    fun l f => by simp only [List.subset_def, List.mem_flatMap]; grind
  rw [held, List.append_subset, List.append_subset, hflat, hflat]

end Stock

namespace Document

variable {d d' d'' : Document} {c m n p : NodeId} {fixed nodes : List NodeId} {stock : Stock}

/-- A node has an exhibit as its content, but for the order of attributes, while a stock is kept beside
it. -/
structure Exposes (d : Document) (c : NodeId) (fixed : List NodeId) (stock : Stock) (x : Exhibit) :
    Prop where
  ready : ∃ ps, d.Ready (some c) ps (piecesAll stock.exhibits) (x.entries ++ entriesAll stock.exhibits) ∧
    Plant.AlikeAll ps x.plants
  proper : x.Proper
  nodup : (c :: (x.nodes ++ nodesAll stock.exhibits)).Nodup
  has : ∀ n ∈ x.nodes ++ nodesAll stock.exhibits, d.Has n
  aside : ∀ y ∈ piecesAll stock.exhibits, ∀ n, Within y.1.root? y.2 n → n ∉ x.nodes
  emptied : ∀ f ∈ stock.emptied, d.Has f ∧ d.isFragment f = true ∧ d.children f = []
  free : ∀ e ∈ x.entries, ∀ n ∈ fixed, n ∉ e.1.texts ∧ n ∉ Plant.idsAll e.2.content
  has_fixed : ∀ n ∈ fixed, d.Has n

namespace Exposes

variable {x x' : Exhibit} {f : Plant → List Plant} {e e' : Binding × Spot}
  {rest : List (Binding × Spot)} {ps new : List Plant}

theorem sound (h : d.Exposes c fixed stock x) : d.Sound := by
  obtain ⟨ps, hready, -⟩ := h.ready
  exact hready.sound

theorem has_root (h : d.Exposes c fixed stock x) : d.Has c := by
  obtain ⟨ps, hready, -⟩ := h.ready
  exact hready.rooted c rfl

theorem nodup_self (h : d.Exposes c fixed stock x) : (c :: x.nodes).Nodup :=
  h.nodup.sublist ((List.sublist_append_left ..).cons_cons c)

theorem nodup_nodes (h : d.Exposes c fixed stock x) : x.nodes.Nodup :=
  (List.nodup_cons.1 h.nodup_self).2

theorem has_self (h : d.Exposes c fixed stock x) : ∀ n ∈ x.nodes, d.Has n :=
  fun n hn => h.has n (List.mem_append_left _ hn)

theorem matches_ (h : d.Exposes c fixed stock x) (hm : Matches x x') : d.Exposes c fixed stock x' where
  ready := by
    rw [hm.entries, hm.plants]
    exact h.ready
  proper := hm.proper h.proper
  nodup := hm.nodes ▸ h.nodup
  has := hm.nodes ▸ h.has
  aside := hm.nodes ▸ h.aside
  emptied := h.emptied
  free := hm.entries ▸ h.free
  has_fixed := h.has_fixed

/-- The children of a node that exposes an exhibit, with one entry of it. -/
theorem exists_ready (h : d.Exposes c fixed stock x) (he : e ∈ x.entries) :
    ∃ ps rest, d.Ready (some c) ps (piecesAll stock.exhibits) (e :: rest ++ entriesAll stock.exhibits) ∧
      Plant.AlikeAll ps x.plants ∧ x.entries.Perm (e :: rest) := by
  obtain ⟨ps, hready, halike⟩ := h.ready
  obtain ⟨A, B, hentries⟩ := List.append_of_mem he
  have hperm : x.entries.Perm (e :: (A ++ B)) := by
    rw [hentries]
    exact List.perm_middle
  exact ⟨ps, A ++ B, hready.perm (.refl _) (hperm.append_right _), halike, hperm⟩

/-- One entry is exchanged, and the document is changed accordingly. -/
theorem amend (h : d.Exposes c fixed stock x) (ha : Amends f m e e' x x') (hf : Plant.Respects f f)
    (halike : Plant.AlikeAll ps x.plants) (hperm : x.entries.Perm (e :: rest))
    (hready : d'.Ready (some c) (Plant.graftAll f ps) (piecesAll stock.exhibits)
      (e' :: rest ++ entriesAll stock.exhibits))
    (hgentle : d.Gentle d') (htexts : e'.1.texts = e.1.texts)
    (hcontent : ∀ n ∈ Plant.idsAll e'.2.content, ¬ d.Has n ∧ d'.Has n)
    (hnodup : (Plant.idsAll e'.2.content).Nodup) : d'.Exposes c fixed stock x' := by
  obtain ⟨A, B, hentries, hentries'⟩ := ha.entries
  obtain ⟨kept, hnodes, hnodes'⟩ := ha.nodes
  have hrest : (A ++ B).Perm rest := by
    refine (List.Perm.cons_inv (a := e) ?_)
    refine (List.perm_middle.symm.trans ?_)
    rw [← hentries]
    exact hperm
  have hmem' : ∀ n ∈ x'.nodes, n ∈ x.nodes ∨ ¬ d.Has n ∧ d'.Has n := fun n hn =>
    (List.mem_append.1 (hnodes'.mem_iff.1 hn)).imp (fun hn => hnodes.mem_iff.2 (List.mem_append_left _ hn))
      (hcontent n)
  refine ⟨⟨_, hready.perm (.refl _) ?_, (halike.graft hf).trans ha.plants⟩, ha.proper, ?_, fun n hn => ?_,
    fun y hy n hw hn => ?_, fun f hf => ?_, fun e'' he n hn => ?_, fun n hn => hgentle.has n (h.has_fixed n hn)⟩
  · rw [hentries']
    exact ((hrest.cons e').symm.trans List.perm_middle.symm).append_right _
  · obtain ⟨hc, hnd⟩ := List.nodup_cons.1 h.nodup
    rw [List.nodup_append] at hnd
    have hself := h.nodup_nodes
    rw [hnodes.nodup_iff, List.nodup_append] at hself
    refine List.nodup_cons.2 ⟨fun hmem => ?_, List.nodup_append.2 ⟨hnodes'.nodup_iff.2
      (List.nodup_append.2 ⟨hself.1, hnodup, fun n hn k hk he => ?_⟩), hnd.2.1, fun n hn k hk he => ?_⟩⟩
    · rcases List.mem_append.1 hmem with hmem | hmem
      · exact (hmem' c hmem).elim (fun hmem => hc (List.mem_append_left _ hmem)) fun hnew =>
          hnew.1 h.has_root
      · exact hc (List.mem_append_right _ hmem)
    · exact (hcontent k hk).1 (h.has_self k (he ▸ hnodes.mem_iff.2 (List.mem_append_left _ hn)))
    · exact (hmem' n hn).elim (fun hn => hnd.2.2 n hn k hk he) fun hnew =>
        hnew.1 (he ▸ h.has k (List.mem_append_right _ hk))
  · rcases List.mem_append.1 hn with hn | hn
    · exact (hmem' n hn).elim (fun hn => hgentle.has n (h.has_self n hn)) And.right
    · exact hgentle.has n (h.has n (List.mem_append_right _ hn))
  · obtain ⟨qs, hqs, -⟩ := h.ready
    exact (hmem' n hn).elim (h.aside y hy n hw) fun hnew => hnew.1 ((hqs.loose y hy).has hw)
  · obtain ⟨hhas, hfragment, hempty⟩ := h.emptied f hf
    exact ⟨hgentle.has f hhas, (hgentle.isFragment hhas).trans hfragment,
      hgentle.empty f hhas hfragment hempty⟩
  · rw [hentries', List.mem_append, List.mem_cons] at he
    have hother : e'' ∈ A ∨ e'' ∈ B → n ∉ e''.1.texts ∧ n ∉ Plant.idsAll e''.2.content := by
      intro he
      refine h.free e'' ?_ n hn
      rw [hentries, List.mem_append, List.mem_cons]
      exact he.imp_right .inr
    rcases he with he | rfl | he
    · exact hother (.inl he)
    · refine ⟨?_, fun hn' => (hcontent n hn').1 (h.has_fixed n hn)⟩
      rw [htexts]
      refine (h.free e ?_ n hn).1
      rw [hentries]
      simp
    · exact hother (.inr he)

/-- A child of an element that has only texts as children is one of them. -/
theorem text_of_child {q : Plant} (hf : d.Forest) (hb : d.Bears (some c) ps)
    (halike : Plant.AlikeAll ps x.plants) (hq : q.Occurs x.plants) (hp : d.parent? m = some q.id)
    (htexts : ∀ r ∈ q.children, ∃ id data, r = .text id data) :
    m ∈ q.children.map Plant.id ∧ d.kind m = .text := by
  obtain ⟨row, hrow, hq⟩ := hq
  obtain ⟨row', hrow', hrows⟩ := halike.exists_row hrow
  obtain ⟨q', hq', hqq⟩ := hrows.mem hq
  obtain ⟨_, hbears⟩ := hb.of_row hrow'
  have hstands := hbears.stand q' hq'
  have hmem := hf.mem_of_parent hp
  have hinner := hf.inner hp
  induction hqq using Plant.Alike.cases with
  | text id data =>
    cases hstands with
    | text _ kind =>
      rw [leaf?, Plant.id, kind] at hinner
      cases hinner
  | comment id data =>
    cases hstands with
    | comment _ kind =>
      rw [leaf?, Plant.id, kind] at hinner
      cases hinner
  | element id tag tag' children children' htag hchildren =>
    cases hstands with
    | element _ _ _ row below =>
      have hm : m ∈ children'.map Plant.id := hchildren.map_id ▸ row ▸ hmem
      obtain ⟨r, hr, rfl⟩ := List.mem_map.1 hm
      obtain ⟨id, data, rfl⟩ := htexts r hr
      obtain ⟨r', hr', hrr⟩ := hchildren.mem hr
      have hstands' := below r' hr'
      refine ⟨hm, ?_⟩
      cases r' <;> rw [Plant.Alike] at hrr <;> try exact False.elim hrr
      cases hstands' with
      | text _ kind => exact hrr.1 ▸ kind

/-! ### What a binding does -/

section Text

variable {b b' : ChildBinding} {old : String}

/-- The text of a binding says something else. -/
theorem say (h : d.Exposes c fixed stock x) {data : String}
    (ha : Amends (Plant.say b.text data) b.text (.child b, .child n [.text b.text old])
      (.child b', .child n [.text b.text data]) x x')
    (hplaceholder : b'.placeholder = b.placeholder) (htext : b'.text = b.text) :
    (d.setData b.text data).Exposes c fixed stock x' ∧ d.Steady (d.setData b.text data) c fixed := by
  have he : (.child b, .child n [.text b.text old]) ∈ x.entries := by
    obtain ⟨A, B, hentries, -⟩ := ha.entries
    rw [hentries]
    simp
  obtain ⟨ps, rest, hready, halike, hperm⟩ := h.exists_ready he
  refine ⟨h.amend ha (Plant.respects_say _ _) halike hperm
    (hready.say (fun y hy hw => h.aside y hy _ hw ha.mem) hplaceholder htext data)
    (gentle_setData d b.text data) (congrArg (fun k => [k]) htext) (fun n hn => by cases hn) .nil,
    fun m p _ hp _ => ⟨kind_setData, parent?_setData.trans hp⟩⟩

/-- The text of a binding is put in front of its placeholder. -/
theorem insert (h : d.Exposes c fixed stock x) {data : String}
    (ha : Amends (Plant.before n [.text b.text data]) m (.child b, .child n [])
      (.child b', .child n [.text b.text data]) x x')
    (hplaceholder : b'.placeholder = b.placeholder) (htext : b'.text = b.text)
    (hn : n ∈ Plant.idsAll x.plants) :
    ∃ p, d.parent? n = some p ∧
      ((d.setData b.text data).insertBlock p (.single b.text) (some n)).Exposes c fixed stock x' ∧
      d.Steady ((d.setData b.text data).insertBlock p (.single b.text) (some n)) c fixed := by
  have he : (.child b, .child n []) ∈ x.entries := by
    obtain ⟨A, B, hentries, -⟩ := ha.entries
    rw [hentries]
    simp
  obtain ⟨ps, rest, hready, halike, hperm⟩ := h.exists_ready he
  obtain ⟨-, hhas, hkind, -⟩ := hready.supports _ (List.mem_cons_self ..)
  have hn : n ∈ Plant.idsAll ps := halike.idsAll ▸ hn
  obtain ⟨p, hp⟩ : ∃ p, d.parent? n = some p := by
    rcases hready.bears.parent_of_mem hready.sound.forest hn with ⟨hroot, -⟩ | ⟨p, hp, -⟩
    · cases hroot
    · exact ⟨p, hp⟩
  have hrevealed := hready.reveal b' hplaceholder htext data
  have hp' : (d.setData b.text data).parent? n = some p := parent?_setData.trans hp
  obtain ⟨front, behind, hrow, hins⟩ := hrevealed.inserted hn hp'
  have hgentle := (gentle_setData d b.text data).trans (gentle_of_inserted hins (by rw [hrow]; simp))
  refine ⟨p, hp, h.amend ha (Plant.respects_before _ _) halike hperm (hrevealed.insert hn hp') hgentle
    (congrArg (fun k => [k]) htext)
    (fun n hn => by cases hn) .nil,
    steady_of_parent? (n := b.text) (fun m _ => (hins.relinked.kind m).trans kind_setData)
      (fun m hm => ?_) hkind fun hfixed => ?_⟩
  · rw [hins.parent?, if_neg (by simpa using hm), parent?_setData]
  · exact (h.free _ he _ hfixed).1 (List.mem_singleton_self _)

/-- The text of a binding is taken away. -/
theorem withdraw (h : d.Exposes c fixed stock x)
    (ha : Amends (Plant.without b.text) m (.child b, .child n [.text b.text old])
      (.child b', .child n []) x x')
    (hplaceholder : b'.placeholder = b.placeholder) (htext : b'.text = b.text)
    (hbeside : Plant.Beside b.text n x.plants) :
    ∃ p, d.parent? n = some p ∧ (d.removeChild p b.text).Exposes c fixed stock x' ∧
      d.Steady (d.removeChild p b.text) c fixed := by
  have he : (.child b, .child n [.text b.text old]) ∈ x.entries := by
    obtain ⟨A, B, hentries, -⟩ := ha.entries
    rw [hentries]
    simp
  obtain ⟨ps, rest, hready, halike, hperm⟩ := h.exists_ready he
  obtain ⟨-, hhas, hkind, -⟩ := hready.supports _ (List.mem_cons_self ..)
  have hbeside : Plant.Beside b.text n ps := halike.beside hbeside
  obtain ⟨p, hp, hpn⟩ := hready.bears.parent_of_beside hready.sound.forest hbeside
  have hmem : b.text ∈ Plant.idsAll ps := by
    obtain ⟨row, hrow, hm, -⟩ := hbeside
    exact hrow.ids_subset (mem_idsAll_of_mem_map hm)
  have hremove : d.removeChild p b.text = d.count.detach b.text := by rw [removeChild, if_pos hp]
  have hrelinked : Relinked d (d.removeChild p b.text) := by
    rw [hremove]
    exact (relinked_counted d 1).trans (relinked_detach d.count b.text)
  refine ⟨p, hpn, h.amend ha (Plant.respects_without _) halike hperm
    (hready.withdraw hmem hp hplaceholder htext) ?_
    (congrArg (fun k => [k]) htext) (fun n hn => by cases hn) .nil,
    steady_of_parent? (n := b.text) (fun m _ => hrelinked.kind m) (fun m hm => ?_) hkind fun hfixed => ?_⟩
  · exact gentle_removeChild hready.sound.forest hp
  · rw [hremove, parent?_detach, if_neg hm]
    rfl
  · exact (h.free _ he _ hfixed).1 (List.mem_singleton_self _)

end Text

/-- An attribute gets another value. -/
theorem value {a : AttributeId} {attached attached' : Bool} {last last' : Option Value} {name : String}
    {v v' : Option String} (h : d.Exposes c fixed stock x)
    (he : (.attr n a attached last, .attr n name v) ∈ x.entries) (hn : n ∈ x.nodes)
    (hv : Ready.Valued d n a v v' d')
    (ha : ∀ F : List (String × String) → List (String × String),
      (∀ l l' : List (String × String), (∀ pair ∈ l, pair.1 ≠ name) → (∀ pair ∈ l', pair.1 ≠ name) →
        (F (l ++ v.toList.map (name, ·) ++ l')).Perm (l ++ v'.toList.map (name, ·) ++ l')) →
      Amends (Plant.adorn n F) n (.attr n a attached last, .attr n name v)
        (.attr n a attached' last', .attr n name v') x x') :
    d'.Exposes c fixed stock x' ∧ d.Steady d' c fixed := by
  obtain ⟨ps, rest, hready, halike, hperm⟩ := h.exists_ready he
  obtain ⟨F, hF, hvalues, hready', hre⟩ := hready.revalue attached' last'
    (fun y hy hw => h.aside y hy n hw hn) hv
  have hgentle : d.Gentle d' := by
    rcases hre with ⟨rfl, -⟩ | hre
    · exact .refl d'
    · exact hre.gentle
  refine ⟨h.amend (ha F hvalues) (Plant.respects_adorn n hF) halike hperm hready' hgentle rfl
    (fun n hn => by cases hn) .nil, ?_⟩
  rcases hre with ⟨rfl, -⟩ | hre
  · exact .refl _ c fixed
  · exact fun m p _ hp _ => ⟨hre.kind m, (hre.parent? m).trans hp⟩

/-- An element gets other content. -/
theorem refill {last last' : Option Value} {old : List Plant} (h : d.Exposes c fixed stock x)
    (ha : Amends (Plant.fill n new) m (.text n last, .text n (some old))
      (.text n last', .text n (some new)) x x')
    (hr : Rewritten d d' n new) (hnd : (Plant.idsAll new).Nodup) (hn : n ∈ x.nodes)
    (hold : ∀ q : Plant, q.Occurs x.plants → q.id = n → q.children = old ∨ q.children = [])
    (htexts : ∀ q ∈ old, ∃ id data, q = .text id data) :
    d'.Exposes c fixed stock x' ∧ d.Steady d' c fixed := by
  have he : (.text n last, .text n (some old)) ∈ x.entries := by
    obtain ⟨A, B, hentries, -⟩ := ha.entries
    rw [hentries]
    simp
  obtain ⟨ps, rest, hready, halike, hperm⟩ := h.exists_ready he
  have hsolid : d.isFragment n = false := by
    obtain ⟨-, -, helement⟩ := hready.supports _ (List.mem_cons_self ..)
    exact isFragment_of_isElement helement
  have hcn : c ≠ n := by
    rintro rfl
    exact (List.nodup_cons.1 h.nodup_self).1 hn
  refine ⟨h.amend ha (Plant.respects_fill _ _) halike hperm
    (hready.fill last' (some new) hr (fun h => hcn (Option.some.inj h)) fun y hy hw => h.aside y hy n hw hn)
    (hr.gentle hsolid) rfl (fun k hk => ⟨hr.fresh k hk, ?_⟩) hnd, fun m p habove hp hm => ?_⟩
  · obtain ⟨q, hq, hk⟩ := Plant.mem_idsAll.1 hk
    exact (hr.stand q hq).has_of_mem hk
  · have hhas := has_of_parent? hp
    refine ⟨hr.kind hhas, ?_⟩
    have hmem := hready.sound.forest.mem_of_parent hp
    by_cases hpn : p = n
    · -- the children of the element are texts that are not fixed
      subst hpn
      have hvisible : p ∈ Plant.idsAll x.plants := by
        rcases hready.bears.within_of_above hready.sound.forest habove (.inl rfl) with hw | hw
        · exact absurd (Option.some.inj hw) hcn
        · exact halike.idsAll ▸ hw
      obtain ⟨q, hq, rfl⟩ := Plant.exists_occurs hvisible
      have htext : ∀ r ∈ q.children, ∃ id data, r = .text id data := by
        intro r hr'
        rcases hold q hq rfl with he | he <;> rw [he] at hr'
        · exact htexts r hr'
        · cases hr'
      obtain ⟨hchild, hkind⟩ := text_of_child hready.sound.forest hready.bears halike hq hp htext
      rcases hm with hm | hm
      · exact absurd hkind hm
      · refine absurd ?_ (h.free _ he m hm).2
        rcases hold q hq rfl with he | he <;> rw [he] at hchild
        · exact mem_idsAll_of_mem_map hchild
        · cases hchild
    · refine hr.sound.forest.parent_of_mem ?_
      rw [hr.children p (has_of_mem_children hmem) hpn]
      exact hmem

end Exposes

end Document

end LiveMarkup
