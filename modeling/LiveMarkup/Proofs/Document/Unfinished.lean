import LiveMarkup.Proofs.Document.Growing
import LiveMarkup.Proofs.Markup.Regularity
import Mathlib.Data.List.Chain
/-!
# Unfinished content in a document

Markup that has been read in part can be laid out in a document before it is finished: the open elements are
made and linked, and what has been read goes into the innermost one. Then adding, opening and closing are steps
from one document to the next (`Builder.laid_add`, `laid_push`, `popMany_laid`), and at the end the document is
the one with the finished content. Every open node is the last child of the one around it
(`Opened.IsFresh.enterAll`).
-/

namespace LiveMarkup

open Markup (Builder Frame Namespace Tag Tree)

/-- What the node of a tree is. -/
def Markup.Tree.kind : Tree → NodeKind
  | .element tag _ => .element tag.name tag.space
  | .text _ => .text
  | .comment _ => .comment

namespace Document

variable {d d' : Document} {n p q : NodeId} {content : List Tree} {tree : Tree}

theorem addContent_append (p : NodeId) (d : Document) (ts us : List Tree) :
    addContent p d (ts ++ us) = addContent p (addContent p d ts) us := by
  induction ts generalizing d with
  | nil => rw [List.nil_append, addContent]
  | cons t ts ih => rw [List.cons_append, addContent, addContent, ih]

/-- Making an element begins with making its node. -/
theorem evolves_createElement_create (d : Document) (tag : Tag) :
    (d.create (.element tag.name tag.space) "").2.Evolves (d.createElement tag).2 [] [] :=
  .foldl (fun d a => evolves_giveAttribute d _ a.1 a.2) tag.attributes _

/-- Adding a tree begins with making its node. -/
theorem evolves_addTree_create (p : NodeId) (d : Document) (t : Tree) :
    ∃ data, (d.create t.kind data).2.Evolves (addTree p d t) [] [] := by
  cases t with
  | element tag children =>
    refine ⟨"", ?_⟩
    rw [addTree, Tree.kind]
    exact ((evolves_createElement_create d tag).trans (evolves_link ..)).trans (evolves_trees.2 children _ _)
  | text data =>
    refine ⟨data, ?_⟩
    rw [addTree, Tree.kind]
    exact evolves_link ..
  | comment data =>
    refine ⟨data, ?_⟩
    rw [addTree, Tree.kind]
    exact evolves_link ..

theorem has_create_next (d : Document) (kind : NodeKind) (data : String) : (d.create kind data).2.Has d.next :=
  (Nat.lt_succ_self _).trans_eq (Array.size_push _).symm

/-- The node of a tree that has been added is the last child. -/
theorem lastChild?_addTree (hp : d.Has p) (t : Tree) :
    (addTree p d t).lastChild? p = some d.next ∧ (addTree p d t).kind d.next = t.kind := by
  have hsprouted := (sprouted_trees.1 t hp).1
  obtain ⟨data, hevolves⟩ := evolves_addTree_create p d t
  refine ⟨?_, (hevolves.kind d.next (has_create_next ..)).trans kind_create_next⟩
  rw [lastChild?, hsprouted.row, List.map_singleton, List.getLast?_append]
  cases t <;> rfl

theorem update_comm (d : Document) (h : n ≠ p) (f g : Node → Node) :
    (d.update p f).update n g = (d.update n g).update p f := by
  have hindex : n.index ≠ p.index := fun he => h (by cases n; cases p; cases he; rfl)
  rw [update, update, update, update]
  congr 1
  refine Array.ext (by simp) fun i hi hi' => ?_
  simp only [Array.getElem_modify]
  split_ifs with hn hp
  · exact absurd (hn.trans hp.symm) hindex
  all_goals rfl

/-- Changing the record of a node that has just been made is making it so. -/
theorem update_push (d : Document) (r : Node) (f : Node → Node) :
    { d with nodes := d.nodes.push r }.update d.next f = { d with nodes := d.nodes.push (f r) } := by
  rw [update]
  congr 1
  refine Array.ext (by simp) fun i hi hi' => ?_
  rw [Array.size_push] at hi'
  simp only [Array.getElem_modify, Array.getElem_push, next]
  by_cases hi : i < d.nodes.size
  · rw [if_neg (by omega), dif_pos hi, dif_pos hi]
  · rw [if_pos (by omega), dif_neg hi, dif_neg hi]

/-- A new node becomes the last child of another one. -/
theorem link_create (hp : d.Has p) (kind : NodeKind) (data : String) :
    (d.create kind data).2.link p d.next
      = { d with nodes := d.nodes.push { Node.alone kind data with parent := some p } }.update p
          fun r => { r with children := r.children ++ [d.next] } := by
  rw [link, update_comm _ hp.ne_next.symm]
  exact congrArg (fun d : Document => d.update p _) (update_push d (Node.alone kind data) _)

/-- Text that is continued after it has been added is the same as the whole text added at once. -/
theorem update_addTree_text (hp : d.Has p) (s t : String) :
    (addTree p d (.text s)).update d.next (fun r => { r with data := r.data ++ t })
      = addTree p d (.text (s ++ t)) := by
  rw [addTree, addTree]
  dsimp only [create_fst]
  rw [link_create hp, link_create hp, update_comm _ hp.ne_next.symm, update_push]
  rfl

end Document

open Document (addContent addTree)

/-- Nodes that are open in a document, each with the namespace of its content: the innermost one, and those
around it from the inside out. -/
structure Opened where
  document : Document
  inner : NodeId × Namespace
  outer : List (NodeId × Namespace)

namespace Opened

variable {o : Opened} {d d' : Document} {n : NodeId} {content : List Tree} {frames : List Frame}
  {stack : List (NodeId × Namespace)}

/-- All open nodes, from the inside out. -/
def nodes (o : Opened) : List (NodeId × Namespace) :=
  o.inner :: o.outer

/-- The document with content in the innermost node, given last tree first. -/
def fill (o : Opened) (content : List Tree) : Document :=
  addContent o.inner.1 o.document content.reverse

/-- Opens an element behind some content. -/
def enter (o : Opened) (frame : Frame) : Opened :=
  let made := (o.fill frame.before).createElement frame.tag
  { document := made.2.link o.inner.1 made.1
    inner := (made.1, frame.tag.contentSpace)
    outer := o.nodes }

/-- Opens some elements, given from the inside out. -/
def enterAll (o : Opened) : List Frame → Opened
  | [] => o
  | frame :: frames => (o.enterAll frames).enter frame

theorem fill_nil (o : Opened) : o.fill [] = o.document := by
  rw [fill, List.reverse_nil, addContent]

theorem fill_cons (o : Opened) (tree : Tree) (content : List Tree) :
    o.fill (tree :: content) = addTree o.inner.1 (o.fill content) tree := by
  rw [fill, List.reverse_cons, Document.addContent_append, addContent, addContent]
  rfl

/-! ### Open nodes -/

/-- Some different nodes of a document, from the inside out, each the last child of the next one. -/
structure Nested (d : Document) (stack : List (NodeId × Namespace)) : Prop where
  has : ∀ x ∈ stack, d.Has x.1
  apart : (stack.map Prod.fst).Nodup
  chain : stack.IsChain fun inner outer => d.lastChild? outer.1 = some inner.1

/-- Whatever is done inside of the innermost node leaves open nodes nested. -/
theorem Nested.mono {x : NodeId × Namespace} (h : Nested d (x :: stack)) (hhas : ∀ n, d.Has n → d'.Has n)
    (hrows : ∀ n, d.Has n → n ≠ x.1 → d'.children n = d.children n) : Nested d' (x :: stack) where
  has y hy := hhas y.1 (h.has y hy)
  apart := h.apart
  chain := by
    refine h.chain.imp_of_mem_tail_imp fun y z _ hz hlast => ?_
    have hne : z.1 ≠ x.1 := fun he => (List.nodup_cons.1 h.apart).1 (he ▸ List.mem_map_of_mem hz)
    rw [Document.lastChild?, hrows z.1 (h.has z (List.mem_cons_of_mem _ hz)) hne]
    exact hlast

theorem Nested.fill (h : Nested o.document o.nodes) (content : List Tree) : Nested (o.fill content) o.nodes := by
  have hsprouted := Document.sprouted_addContent (h.has o.inner List.mem_cons_self) content.reverse
  exact h.mono (fun _ => hsprouted.has) hsprouted.rows

theorem Nested.enter (h : Nested o.document o.nodes) (frame : Frame) :
    Nested (o.enter frame).document (o.enter frame).nodes := by
  have hfill := h.fill frame.before
  have hinner := hfill.has o.inner List.mem_cons_self
  have hbudded := Document.budded_createElement (o.fill frame.before) frame.tag
  obtain ⟨hsize, -, hhas, -, hrow, hrows⟩ := hbudded.link hinner
  have hgrow : ∀ n, (o.fill frame.before).Has n → (o.enter frame).document.Has n := fun n hn =>
    Nat.lt_of_lt_of_eq (Nat.lt_succ_of_lt hn) hsize.symm
  have houter : Nested (o.enter frame).document o.nodes := hfill.mono hgrow fun n _ hn => hrows n hn
  refine ⟨List.forall_mem_cons.2 ⟨hhas, houter.has⟩, ?_, ?_⟩
  · refine List.nodup_cons.2 ⟨fun hmem => ?_, houter.apart⟩
    obtain ⟨x, hx, he⟩ := List.mem_map.1 hmem
    refine Document.not_has_next (d := o.fill frame.before) ?_
    rw [← hbudded.fresh]
    exact he ▸ hfill.has x hx
  · refine List.isChain_cons_cons.2 ⟨?_, houter.chain⟩
    show (o.enter frame).document.lastChild? o.inner.1 = _
    rw [Document.lastChild?]
    exact (congrArg List.getLast? hrow).trans List.getLast?_concat

/-- Nodes that are open and nested, with nothing in the innermost one. -/
structure IsFresh (o : Opened) : Prop where
  nested : Nested o.document o.nodes
  children : o.document.children o.inner.1 = []

/-- An element that has just been opened has no content yet. -/
theorem IsFresh.enter (h : o.IsFresh) (frame : Frame) : (o.enter frame).IsFresh where
  nested := h.nested.enter frame
  children := by
    have hinner := (h.nested.fill frame.before).has o.inner List.mem_cons_self
    exact ((Document.budded_createElement (o.fill frame.before) frame.tag).link hinner).2.2.2.1

theorem IsFresh.enterAll (h : o.IsFresh) (frames : List Frame) : (o.enterAll frames).IsFresh := by
  induction frames with
  | nil => exact h
  | cons frame frames ih => exact ih.enter frame

/-- Opening an element leaves the nodes what they are, and the new one is the element. -/
theorem kind_enter (o : Opened) (frame : Frame) :
    (o.enter frame).document.kind (o.enter frame).inner.1 = .element frame.tag.name frame.tag.space ∧
      ∀ n, o.document.Has n → (o.enter frame).document.kind n = o.document.kind n := by
  have hfill : o.document.Evolves (o.fill frame.before) [] [] := Document.evolves_trees.2 frame.before.reverse _ _
  have hmade := (Document.evolves_createElement_create (o.fill frame.before) frame.tag).trans
    (Document.evolves_link _ o.inner.1 (o.fill frame.before).next)
  constructor
  · exact (hmade.kind _ (Document.has_create_next ..)).trans Document.kind_create_next
  · have henter : o.document.Evolves (o.enter frame).document [] [] :=
      (hfill.trans (Document.evolves_createElement ..)).trans (Document.evolves_link ..)
    exact henter.kind

/-- What the open nodes are, from the inside out: the elements of the frames, and what was open before. -/
theorem kinds_enterAll (h : o.IsFresh) (frames : List Frame) :
    (o.enterAll frames).nodes.map (fun x => (o.enterAll frames).document.kind x.1)
      = frames.map (fun frame => NodeKind.element frame.tag.name frame.tag.space)
        ++ o.nodes.map fun x => o.document.kind x.1 := by
  induction frames with
  | nil => rfl
  | cons frame frames ih =>
    obtain ⟨hinner, hkeep⟩ := kind_enter (o.enterAll frames) frame
    rw [enterAll, List.map_cons, List.cons_append, ← ih]
    refine congrArg₂ List.cons hinner (List.map_congr_left fun x hx => ?_)
    exact hkeep x.1 ((h.enterAll frames).nested.has x hx)

/-- Where the open nodes begin further out, the inner ones are left off. -/
theorem nodes_enterAll_drop (o : Opened) {i : Nat} (hi : i ≤ frames.length) :
    (o.enterAll (frames.drop i)).nodes = (o.enterAll frames).nodes.drop i := by
  induction frames generalizing i with
  | nil => cases Nat.le_zero.1 hi; rfl
  | cons frame frames ih =>
    cases i with
    | zero => rfl
    | succ i => exact ih (Nat.le_of_succ_le_succ hi)

theorem length_nodes_enterAll (o : Opened) (frames : List Frame) :
    (o.enterAll frames).nodes.length = frames.length + o.nodes.length := by
  induction frames with
  | nil => exact (Nat.zero_add _).symm
  | cons frame frames ih => rw [List.length_cons, Nat.succ_add, ← ih]; rfl

end Opened

/-! ### Steps of reading -/

namespace Markup.Builder

variable {o : Opened} {b : Builder} {s : List Char}

/-- The document with what has been read so far. -/
def laid (o : Opened) (b : Builder) : Document :=
  (o.enterAll b.frames).fill b.content

theorem laid_add (o : Opened) (b : Builder) (tree : Tree) :
    (b.add tree).laid o = Document.addTree (o.enterAll b.frames).inner.1 (b.laid o) tree :=
  (o.enterAll b.frames).fill_cons tree b.content

theorem laid_push (o : Opened) (b : Builder) (tag : Tag) :
    (b.push tag).laid o
      = ((b.laid o).createElement tag).2.link (o.enterAll b.frames).inner.1 ((b.laid o).createElement tag).1 :=
  Opened.fill_nil _

/-- Closing an element changes nothing in the document. -/
theorem laid_pop (o : Opened) (b : Builder) : b.pop.laid o = b.laid o := by
  obtain ⟨outer, frames, content⟩ := b
  cases frames with
  | nil => rfl
  | cons frame frames =>
    rw [pop, laid, Opened.fill_cons, Document.addTree]
    rfl

theorem popMany_laid (o : Opened) (n : Nat) (b : Builder) : (popMany n b).laid o = b.laid o := by
  induction n generalizing b with
  | zero => rfl
  | succ n ih => rw [popMany, ih, laid_pop]

theorem outer_popMany (n : Nat) (b : Builder) : (popMany n b).outer = b.outer := by
  induction n generalizing b with
  | zero => rfl
  | succ n ih =>
    obtain ⟨outer, frames, content⟩ := b
    cases frames <;> exact ih _

/-- At the end the document has the finished content. -/
theorem laid_finish (o : Opened) (b : Builder) :
    b.laid o = Document.addContent o.inner.1 o.document b.finish := by
  rw [← popMany_laid o b.frames.length, laid, frames_popMany_length]
  rfl

/-- Text continues the text in front of it, if the last node so far is one. -/
theorem laid_addText (h : o.IsFresh) (b : Builder) (hs : s ≠ []) :
    (b.addText s).laid o =
      match ((b.laid o).lastChild? (o.enterAll b.frames).inner.1).filter ((b.laid o).kind · = .text) with
      | some last => (b.laid o).update last fun r => { r with data := r.data ++ String.ofList s }
      | none => Document.addTree (o.enterAll b.frames).inner.1 (b.laid o) (.text (String.ofList s)) := by
  have hfresh := h.enterAll b.frames
  obtain ⟨outer, frames, content⟩ := b
  cases content with
  | nil =>
    have hnone : ((Builder.mk outer frames []).laid o).lastChild? (o.enterAll frames).inner.1 = none := by
      rw [laid, Opened.fill_nil, Document.lastChild?, hfresh.children]
      rfl
    rw [addText, if_neg (by simpa using hs), hnone]
    exact laid_add o _ _
  | cons tree before =>
    have hhas := (hfresh.nested.fill before).has (o.enterAll frames).inner List.mem_cons_self
    obtain ⟨hlast, hkind⟩ := Document.lastChild?_addTree hhas tree
    rw [← Opened.fill_cons] at hlast hkind
    rw [addText, if_neg (by simpa using hs), laid, laid, hlast]
    cases tree with
    | text data =>
      have hsame := Document.update_addTree_text hhas data (String.ofList s)
      rw [← Opened.fill_cons, ← Opened.fill_cons] at hsame
      simp only [Option.filter_some, hkind, Tree.kind, decide_true, if_true]
      exact hsame.symm
    | element tag children =>
      simp only [Option.filter_some, hkind, Tree.kind, reduceCtorEq, decide_false, Bool.false_eq_true, if_false]
      exact Opened.fill_cons ..
    | comment data =>
      simp only [Option.filter_some, hkind, Tree.kind, reduceCtorEq, decide_false, Bool.false_eq_true, if_false]
      exact Opened.fill_cons ..

end Markup.Builder

end LiveMarkup
