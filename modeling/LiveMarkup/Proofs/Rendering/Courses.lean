import LiveMarkup.Proofs.Document.Edits
import LiveMarkup.Proofs.Document.Listeners
import LiveMarkup.Rendering.Binding
/-!
# The listener that a binding keeps

A binding is brought up to date with one value after another while the document around it changes in other ways
(`Binding.Course`). What it has left in the document then depends on the values only, and not on how often they
have been given or what has come between them.

The binding of an event keeps one listener, the last one given, unless a null has come after it
(`Binding.course_keeps_listener`). So that one is called once when an event is dispatched, and those before it are
not. It remembers the listener and the element has it, and these two change in separate steps; that they agree, and
that the element has no other one of those given, is the invariant that every value keeps (`Binding.Subscribed`).
-/

namespace LiveMarkup

variable {d d' d₀ : Document} {n m : NodeId} {values : List Value} {b b₀ : Binding}
  {others : Document → Document → Prop}

/-- A binding is brought up to date with some values one after another, and before each of them and at the end
others change the document. -/
inductive Binding.Course (others : Document → Document → Prop) (b₀ : Binding) (d₀ : Document) :
    List Value → Binding → Document → Prop where
  | start : Course others b₀ d₀ [] b₀ d₀
  | other {values : List Value} {b : Binding} {d d' : Document} : Course others b₀ d₀ values b d → others d d' →
      Course others b₀ d₀ values b d'
  | update {values : List Value} {b : Binding} {d : Document} (v : Value) : Course others b₀ d₀ values b d →
      Course others b₀ d₀ (values ++ [v]) (b.update d v).1 (b.update d v).2

namespace Binding

/-- An attribute hole stands for a cell, a property, an event or an attribute, and only for the last one is
something made. -/
theorem ofAttribute_cases (d : Document) (n : NodeId) (name : String) :
    ofAttribute d n name = (.cell n, d) ∨ (∃ property, ofAttribute d n name = (.property n property none, d)) ∨
      ofAttribute d n name = (.event n (eventType d n name.toList) none, d) ∨
        ofAttribute d n name = (.attr n d.nextAttribute false none, (d.createAttributeFor n name).2) := by
  unfold ofAttribute
  by_cases href : name = "ref"
  · exact .inl (if_pos href)
  · rw [if_neg href]
    split
    · exact .inr (.inl ⟨_, rfl⟩)
    · exact .inr (.inr (.inl rfl))
    · exact .inr (.inr (.inr rfl))

/-! ### Events -/

open Document (has_removeListener has_addListener listenersFor_removeListener listenersFor_addListener
  listenersFor_removeListener_of_ne listenersFor_addListener_of_ne)

variable {type type' : String} {current next : Option ListenerId} {mine : List ListenerId}

/-- The listener that some values have asked for last: values that are neither a listener nor null ask for
nothing. -/
def lastListener (values : List Value) : Option ListenerId :=
  (values.filterMap listener?).getLastD none

theorem lastListener_append {v : Value} :
    lastListener (values ++ [v]) = (listener? v).getD (lastListener values) := by
  rw [lastListener, List.filterMap_append]
  cases h : listener? v with
  | none => rw [List.filterMap_cons_none h, List.filterMap_nil, List.append_nil, lastListener, Option.getD_none]
  | some next => rw [List.filterMap_cons_some h, List.filterMap_nil, List.getLastD_concat, Option.getD_some]

theorem has_exchangeListener : (exchangeListener n type current next d).Has m ↔ d.Has m := by
  unfold exchangeListener
  cases current <;> cases next <;> simp [has_removeListener, has_addListener]

theorem exchangeListener_of_ne (h : m ≠ n ∨ type' ≠ type) :
    (exchangeListener n type current next d).listenersFor m type' = d.listenersFor m type' := by
  unfold exchangeListener
  cases current <;> cases next <;> simp [listenersFor_removeListener_of_ne h, listenersFor_addListener_of_ne h]

/-- If the current listener is the only one of some that a list has, then the others are what is left without
it. -/
theorem erase_eq_filter {l : List ListenerId} (h : l.filter (· ∈ mine) = current.toList) :
    current.elim l l.erase = l.filter (· ∉ mine) := by
  have hout : ∀ l : List ListenerId, l.filter (· ∈ mine) = [] → l = l.filter (· ∉ mine) := by
    intro l hl
    rw [List.filter_eq_nil_iff] at hl
    exact (List.filter_eq_self.2 fun k hk => by simpa using hl k hk).symm
  cases current with
  | none => exact hout l h
  | some c =>
    rw [Option.toList_some] at h
    have hc : c ∈ mine := by
      have hmem : c ∈ l.filter (· ∈ mine) := h ▸ List.mem_singleton_self c
      simpa using (List.mem_filter.1 hmem).2
    have hnil : (l.erase c).filter (· ∈ mine) = [] := by
      rw [← List.erase_filter, h, List.erase_cons_head]
    show l.erase c = _
    rw [hout _ hnil, ← List.erase_filter, List.erase_of_not_mem]
    simp [hc]

/-- The next listener comes behind all that are not the binding's own. -/
theorem exchangeListener_self (hn : d.Has n)
    (hown : (d.listenersFor n type).filter (· ∈ mine) = current.toList) (hnext : ∀ l, next = some l → l ∈ mine) :
    (exchangeListener n type current next d).listenersFor n type =
      (d.listenersFor n type).filter (· ∉ mine) ++ next.toList := by
  have hremoved : ∃ d', d'.Has n ∧ d'.listenersFor n type = (d.listenersFor n type).filter (· ∉ mine) ∧
      exchangeListener n type current next d = exchangeListener n type none next d' := by
    rw [← erase_eq_filter hown]
    cases current with
    | none => exact ⟨d, hn, rfl, rfl⟩
    | some c => exact ⟨d.removeListener n type c, has_removeListener.2 hn, listenersFor_removeListener, rfl⟩
  obtain ⟨d', hn', hrest, heq⟩ := hremoved
  rw [heq, ← hrest]
  cases next with
  | none => exact (List.append_nil _).symm
  | some l =>
    refine listenersFor_addListener hn' ?_
    rw [hrest]
    simp [hnext l rfl]

/-- A binding has brought an event up to date with some values: it remembers the listener that they come to, and of
some listeners, among which all that it has been given are, the element has that one only. -/
structure Subscribed (n : NodeId) (type : String) (mine : List ListenerId) (values : List Value) (b : Binding)
    (d : Document) : Prop where
  binding : b = .event n type (lastListener values)
  has : d.Has n
  own : (d.listenersFor n type).filter (· ∈ mine) = (lastListener values).toList

/-- Values that are neither a listener nor null are noted and nothing else. -/
theorem update_event_unusable {v : Value} (h : listener? v = none) :
    (event n type current).update d v = (.event n type current, d.note (.listenerExpected type v.shape)) := by
  rw [update, h]

theorem update_event_same {v : Value} (h : listener? v = some current) :
    (event n type current).update d v = (.event n type current, d) := by
  rw [update, h]
  exact if_pos rfl

theorem update_event_next {v : Value} (h : listener? v = some next) (hne : current ≠ next) :
    (event n type current).update d v = (.event n type next, exchangeListener n type current next d) := by
  rw [update, h]
  exact if_neg hne

/-- One more value. What the element has then is either what it has had, or the others and the next listener. -/
theorem Subscribed.update {v : Value} (h : Subscribed n type mine values b d)
    (hv : ∀ l, listener? v = some (some l) → l ∈ mine) :
    let d' := (b.update d v).2
    Subscribed n type mine (values ++ [v]) (b.update d v).1 d' ∧ d.Relistened d' n type mine ∧
      (lastListener (values ++ [v]) = lastListener values ∧ d'.listenersFor n type = d.listenersFor n type ∨
        d'.listenersFor n type =
          (d.listenersFor n type).filter (· ∉ mine) ++ (lastListener (values ++ [v])).toList) := by
  obtain ⟨rfl, hn, hown⟩ := h
  cases hasked : listener? v with
  | none =>
    have hlast : lastListener (values ++ [v]) = lastListener values := by rw [lastListener_append, hasked]; rfl
    rw [update_event_unusable hasked]
    exact ⟨⟨by rw [hlast], hn, hlast ▸ hown⟩, ⟨rfl, fun _ _ _ => rfl⟩, .inl ⟨hlast, rfl⟩⟩
  | some next =>
    have hlast : lastListener (values ++ [v]) = next := by rw [lastListener_append, hasked]; rfl
    by_cases hsame : lastListener values = next
    · rw [update_event_same (hasked.trans (congrArg some hsame.symm))]
      have hkept : lastListener (values ++ [v]) = lastListener values := hlast.trans hsame.symm
      exact ⟨⟨by rw [hkept], hn, hkept ▸ hown⟩, ⟨rfl, fun _ _ _ => rfl⟩, .inl ⟨hkept, rfl⟩⟩
    · have hnext : ∀ l ∈ next.toList, l ∈ mine := fun l hl => hv l (Option.mem_toList.1 hl ▸ hasked)
      have hself := exchangeListener_self hn hown fun l hl => hnext l (Option.mem_toList.2 hl)
      have hmine : next.toList.filter (· ∈ mine) = next.toList :=
        List.filter_eq_self.2 fun l hl => by simpa using hnext l hl
      have hnone : next.toList.filter (· ∉ mine) = [] :=
        List.filter_eq_nil_iff.2 fun l hl => by simpa using hnext l hl
      rw [update_event_next hasked hsame]
      refine ⟨⟨by rw [hlast], has_exchangeListener.2 hn, ?_⟩, ⟨?_, fun m type' hne => exchangeListener_of_ne hne⟩,
        .inr (hlast ▸ hself)⟩
      · rw [hself, hlast, List.filter_append, hmine]
        simp [List.filter_filter]
      · rw [hself, List.filter_append, hnone, List.append_nil, List.filter_filter]
        simp

theorem subscribed_course {e : Document} (hn : d.Has n) (hfree : ∀ l ∈ mine, l ∉ d.listenersFor n type)
    (hothers : ∀ e e', others e e' → e.LeavesListeners e' n type mine)
    (hcourse : Course others (.event n type none) d values b e)
    (hvalues : ∀ v ∈ values, ∀ l, listener? v = some (some l) → l ∈ mine) :
    Subscribed n type mine values b e := by
  induction hcourse with
  | start =>
    refine ⟨rfl, hn, List.filter_eq_nil_iff.2 fun l hl => ?_⟩
    simpa using fun hmine => hfree l hmine hl
  | other _ hstep ih =>
    have hleaves := hothers _ _ hstep
    have h := ih hvalues
    exact ⟨h.binding, hleaves.has h.has, hleaves.own.trans h.own⟩
  | update v _ ih =>
    rw [List.forall_mem_append] at hvalues
    exact ((ih hvalues.1).update (hvalues.2 v (List.mem_singleton_self v))).1

/-- If nothing else changes the listeners, then the binding's own one is behind those that have been there. -/
theorem listenersFor_course {e : Document} (hn : d.Has n) (hfree : ∀ l ∈ mine, l ∉ d.listenersFor n type)
    (hothers : ∀ e e', others e e' → e.LeavesListeners e' n type mine)
    (halone : ∀ e e', others e e' → e'.listenersFor n type = e.listenersFor n type)
    (hcourse : Course others (.event n type none) d values b e)
    (hvalues : ∀ v ∈ values, ∀ l, listener? v = some (some l) → l ∈ mine) :
    e.listenersFor n type = d.listenersFor n type ++ (lastListener values).toList := by
  induction hcourse with
  | start => exact (List.append_nil _).symm
  | other _ hstep ih => exact (halone _ _ hstep).trans (ih hvalues)
  | @update values b e v hcourse ih =>
    rw [List.forall_mem_append] at hvalues
    have hsub := subscribed_course hn hfree hothers hcourse hvalues.1
    obtain ⟨-, -, ⟨hlast, hsame⟩ | hnew⟩ := hsub.update (hvalues.2 v (List.mem_singleton_self v))
    · rw [hsame, hlast, ih hvalues.1]
    · have hforeign : (d.listenersFor n type).filter (· ∉ mine) = d.listenersFor n type :=
        List.filter_eq_self.2 fun l hl => by simpa using fun hmine => hfree l hmine hl
      have hnone : (lastListener values).toList.filter (· ∉ mine) = [] := by
        rw [← hsub.own, List.filter_filter]
        simp
      rw [hnew, ih hvalues.1, List.filter_append, hforeign, hnone, List.append_nil]

/-- Binding an event makes nothing. -/
theorem ofHole_event {name : String} (h : (ofHole d n (.attr name)).1 = .event n type none) :
    (ofHole d n (.attr name)).2 = d := by
  change (ofAttribute d n name).1 = _ at h
  change (ofAttribute d n name).2 = d
  obtain hmade | ⟨property, hmade⟩ | hmade | hmade := ofAttribute_cases d n name <;> rw [hmade] at h ⊢
  cases h

/-- The binding of an event hole keeps one listener, whatever it is given and whatever else happens to the document,
as long as nothing else adds or takes away the listeners that it is given. The element has of these the one that
has been asked for last and no other, once; where nothing else changes the listeners, it is behind those that have
been there. A value changes nothing of the other listeners and of their order, and nothing at all if it asks for what
is there already or for nothing. -/
theorem course_keeps_listener {name : String} {mine : List ListenerId} {e : Document} (hn : d.Has n)
    (hhole : (ofHole d n (.attr name)).1 = .event n type none) (hfree : ∀ l ∈ mine, l ∉ d.listenersFor n type)
    (hothers : ∀ e e', others e e' → e.LeavesListeners e' n type mine)
    (hcourse : Course others (ofHole d n (.attr name)).1 (ofHole d n (.attr name)).2 values b e)
    (hvalues : ∀ v ∈ values, ∀ l, listener? v = some (some l) → l ∈ mine) :
    let current := lastListener values
    (e.listenersFor n type).filter (· ∈ mine) = current.toList ∧
      (∀ l ∈ mine, (e.listenersFor n type).count l = if current = some l then 1 else 0) ∧
      ((∀ e e', others e e' → e'.listenersFor n type = e.listenersFor n type) →
        e.listenersFor n type = d.listenersFor n type ++ current.toList) ∧
      ∀ v, (∀ l, listener? v = some (some l) → l ∈ mine) →
        e.Relistened (b.update e v).2 n type mine ∧
          (listener? v = some current → b.update e v = (b, e)) ∧
          (listener? v = none → b.update e v = (b, e.note (.listenerExpected type v.shape))) := by
  intro current
  rw [hhole, ofHole_event hhole] at hcourse
  have hsub := subscribed_course hn hfree hothers hcourse hvalues
  refine ⟨hsub.own, fun l hl => ?_, fun halone => listenersFor_course hn hfree hothers halone hcourse hvalues,
    fun v hv => ⟨(hsub.update hv).2.1, fun hasked => ?_, fun hasked => ?_⟩⟩
  · have hcount := List.count_filter (l := e.listenersFor n type) (a := l) (p := fun l => decide (l ∈ mine))
      (by simpa using hl)
    rw [hsub.own] at hcount
    rw [← hcount]
    show List.count l current.toList = _
    cases current with
    | none => rfl
    | some c => simp [List.count_singleton]
  · rw [hsub.binding]
    exact update_event_same hasked
  · rw [hsub.binding]
    exact update_event_unusable hasked

/-- A paragraph with an attribute. -/
def titledParagraph : Document :=
  (Document.empty.parse .html "<p title=a></p>").2

/-- The paragraph has a listener that the binding is not given, and gets another one of that sort while the binding
is given listeners, a value of no use and a null. -/
theorem course_keeps_listener_paragraph :
    let d := titledParagraph.addListener ⟨1⟩ "click" ⟨9⟩
    let mine : List ListenerId := [⟨1⟩, ⟨2⟩]
    let others := fun e e' : Document => e.LeavesListeners e' ⟨1⟩ "click" mine
    let made := ofHole d ⟨1⟩ (.attr "onClick")
    let values : List Value := [.listener ⟨1⟩, .listener ⟨2⟩, .bool true, .null, .listener ⟨1⟩]
    (d.Has ⟨1⟩ ∧ made.1 = .event ⟨1⟩ "click" none ∧ (∀ l ∈ mine, l ∉ d.listenersFor ⟨1⟩ "click") ∧
        ∀ v ∈ values, ∀ l, listener? v = some (some l) → l ∈ mine) ∧
      ∃ b e, Course others made.1 made.2 values b e ∧ e.listenersFor ⟨1⟩ "click" = [⟨9⟩, ⟨8⟩, ⟨1⟩] ∧
        (e.listenersFor ⟨1⟩ "click").filter (· ∈ mine) = [⟨1⟩] := by
  intro d mine others made values
  have hn : d.Has ⟨1⟩ := by decide +kernel
  have htype : eventType d ⟨1⟩ "onClick".toList = "click" := by decide +kernel
  have hhole : made.1 = .event ⟨1⟩ "click" none := congrArg (event ⟨1⟩ · none) htype
  have hfree : ∀ l ∈ mine, l ∉ d.listenersFor ⟨1⟩ "click" := by decide +kernel
  have hvalues : ∀ v ∈ values, ∀ l, listener? v = some (some l) → l ∈ mine := by
    simp [values, mine, listener?]
  let first := made.1.update made.2 (.listener ⟨1⟩)
  have hother : others first.2 (first.2.addListener ⟨1⟩ "click" ⟨8⟩) := ⟨by decide +kernel, by decide +kernel⟩
  have hcourse : Course others made.1 made.2 values _ _ :=
    .update _ (.update _ (.update _ (.update _ (.other (.update (.listener ⟨1⟩) .start) hother))))
  have h := course_keeps_listener hn hhole hfree (fun _ _ h => h) hcourse hvalues
  exact ⟨⟨hn, hhole, hfree, hvalues⟩, _, _, hcourse, by decide +kernel, h.1⟩

end Binding

end LiveMarkup
