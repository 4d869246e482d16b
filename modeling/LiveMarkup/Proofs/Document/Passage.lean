import LiveMarkup.Proofs.Document.Leftovers
import LiveMarkup.Proofs.Document.Steps
/-!
# What a reconciliation does to a document

A reconciliation does nothing to the document but find the nodes of entries, put them into the container, take
children of it away, and replace them. So whatever is true between a document and the one behind each of these
is true between the documents in front of a reconciliation and behind it (`Document.respects_reconcile`).
-/

namespace LiveMarkup

variable {E : Type} {site : Site E} {entries : E → Prop} {R : Document → Document → Prop} {e o n : E}

/-- What a reconciliation of some entries does to the document one at a time stays within a relation. -/
structure Site.Respects (site : Site E) (entries : E → Prop) (R : Document → Document → Prop) : Prop where
  refl : ∀ d, R d d
  trans : ∀ {d d' d''}, R d d' → R d' d'' → R d d''
  find : ∀ e, entries e → ∀ (access : Access) (d : Document), R d (site.find e access d).2
  insert : ∀ (d : Document) (n : NodeId) (reference : Option NodeId),
    R d (d.insertBefore site.container n reference)
  remove : ∀ (d : Document) (c : NodeId), R d (d.removeChild site.container c)
  replace : ∀ (d : Document) (n c : NodeId), R d (d.replaceChild site.container n c)

namespace Pass

theorem respects_insert (hsite : site.Respects entries R) (he : entries e) (s : Pass E)
    (reference : Option NodeId) : R s.document (s.insert site e reference).document :=
  hsite.trans (hsite.find e he .insert s.document) (hsite.insert ..)

theorem respects_insertAll (hsite : site.Respects entries R) {es : List E} (hes : ∀ e ∈ es, entries e)
    (s : Pass E) (reference : Option NodeId) : R s.document (s.insertAll site es reference).document := by
  induction es generalizing s with
  | nil => exact hsite.refl _
  | cons e rest ih =>
    obtain ⟨he, hrest⟩ := List.forall_mem_cons.1 hes
    exact hsite.trans (respects_insert hsite he s reference) (ih hrest _)

theorem respects_remove (hsite : site.Respects entries R) (he : entries e) (s : Pass E) :
    R s.document (s.remove site e).document :=
  hsite.trans (hsite.find e he .remove s.document) (hsite.remove ..)

theorem respects_removeEach (hsite : site.Respects entries R) {es : List E} (hes : ∀ e ∈ es, entries e)
    (s : Pass E) : R s.document (es.foldl (fun s e => s.remove site e) s).document := by
  induction es generalizing s with
  | nil => exact hsite.refl _
  | cons e rest ih =>
    obtain ⟨he, hrest⟩ := List.forall_mem_cons.1 hes
    exact hsite.trans (respects_remove hsite he s) (ih hrest _)

theorem respects_replace (hsite : site.Respects entries R) (hn : entries n) (ho : entries o) (s : Pass E) :
    R s.document (s.replace site n o).document :=
  hsite.trans (hsite.trans (hsite.find n hn .insert s.document) (hsite.find o ho .remove _)) (hsite.replace ..)

theorem respects_swapEnds {z : E} (hsite : site.Respects entries R) (ho : entries o) (hz : entries z)
    (s : Pass E) : R s.document (s.swapEnds site o z).document := by
  refine hsite.trans ?_ (respects_insert hsite ho _ _)
  have hfound := hsite.trans (hsite.find z hz .remove s.document) (hsite.find z hz .insert _)
  exact hsite.trans (hsite.trans hfound (hsite.find o ho .remove _)) (hsite.insert ..)

/-- All entries that a pass deals with are some of these. -/
structure Among (s : Pass E) (entries : E → Prop) : Prop where
  old : ∀ e ∈ s.old, entries e
  target : ∀ e ∈ s.target, entries e

namespace Among

variable {s : Pass E}

theorem new (h : s.Among entries) : ∀ e ∈ s.new, entries e := fun e he =>
  h.target e (List.mem_append_left _ (List.mem_append_right _ he))

theorem front (h : s.Among entries) : ∀ e ∈ s.front, entries e := fun e he =>
  h.target e (List.mem_append_left _ (List.mem_append_left _ (List.mem_reverse.2 he)))

theorem back (h : s.Among entries) : ∀ e ∈ s.back, entries e := fun e he =>
  h.target e (List.mem_append_right _ he)

end Among

theorem respects_gap (hsite : site.Respects entries R) {s : Pass E} (hs : s.Among entries) :
    R s.document (s.gap site).2.document := by
  unfold gap
  split
  · exact hsite.refl _
  · rename_i hfront
    exact hsite.find _ (hs.front _ (List.mem_of_head? hfront)) .last _
  · rename_i hback _
    exact hsite.find _ (hs.back _ (List.mem_of_head? hback)) .first _

variable [DecidableEq E] {s s' : Pass E}

theorem Among.step (hs : s.Among entries) (site : Site E) : (s.step site).Among entries where
  old e he := hs.old e ((s.old_step_sublist site).subset he)
  target e he := hs.target e (s.target_step site ▸ he)

theorem respects_exchangeLast (hsite : site.Respects entries R) (hs : s.Among entries) (ho : entries o)
    (hn : entries n) : R s.document (s.exchangeLast site o n).document := by
  unfold exchangeLast
  dsimp only
  refine iteInduction (motive := fun t : Pass E => R s.document t.document) (fun _ => ?_)
    fun _ => respects_replace hsite hn ho s
  split
  · rename_i e hback
    have he := hs.back e (List.mem_of_head? hback)
    exact hsite.trans (hsite.find e he .first s.document) (respects_insert hsite hn (s.find site _ _).2 _)
  · exact respects_insert hsite hn s _

theorem respects_work (hsite : site.Respects entries R) (hs : s.Among entries) (h : Work site s s') :
    R s.document s'.document := by
  have hold {o : E} {os : List E} (ho : s.old = o :: os) : entries o :=
    hs.old o (ho ▸ List.mem_cons_self ..)
  have hnew {n : E} {ns : List E} (hn : s.new = n :: ns) : entries n :=
    hs.new n (hn ▸ List.mem_cons_self ..)
  cases h with
  | placeRest => exact hsite.trans (respects_gap hsite hs) (respects_insertAll hsite hs.new (s.gap site).2 _)
  | removeRest => exact respects_removeEach hsite hs.old s
  | exchangeLast ho hn => exact respects_exchangeLast hsite hs (hold ho) (hnew hn)
  | swapEnds ho hn => exact respects_swapEnds hsite (hold ho) (hnew hn) s
  | drop ho => exact respects_remove hsite (hold ho) s.withIndex
  | placeRun ho =>
    refine hsite.trans (hsite.find _ (hold ho) .first s.document) ?_
    exact respects_insertAll hsite (fun e he => hs.new e (List.mem_of_mem_take he)) (s.withIndex.find site _ _).2 _
  | replace ho hn => exact respects_replace hsite (hnew hn) (hold ho) s.withIndex
  | pass => exact hsite.refl _

theorem respects_turn (hsite : site.Respects entries R) (hs : s.Among entries) (h : Turn site s s') :
    R s.document s'.document := by
  cases h with
  | advance | retreat => exact hsite.refl _
  | work _ hwork => exact respects_work hsite hs hwork

theorem respects_run (hsite : site.Respects entries R) (hs : s.Among entries) :
    R s.document (s.run site).document := by
  fun_induction run s site with
  | case1 => exact hsite.refl _
  | case2 s h ih => exact hsite.trans (respects_turn hsite hs (turn_step s site h)) (ih (hs.step site))

end Pass

theorem Document.respects_reconcile [DecidableEq E] (hsite : site.Respects entries R) (d : Document)
    {old new : List E} (hold : ∀ e ∈ old, entries e) (hnew : ∀ e ∈ new, entries e) :
    R d (d.reconcile site old new).document := by
  have hstart : (Pass.start d old new).Among entries :=
    ⟨hold, fun e he => hnew e (by simpa [Pass.target, Pass.start] using he)⟩
  exact Pass.respects_run hsite hstart

end LiveMarkup
