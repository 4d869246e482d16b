import LiveMarkup.Document.Reconcile
import Mathlib.Tactic.SplitIfs
/-!
# What a step of a reconciliation can be

A step passes over an entry that is the same at one end of both lists (`Pass.Turn.advance`,
`Pass.Turn.retreat`), or does some work. It does work only when nothing is left to be passed over
(`Pass.Apart`), and `Pass.Work` lists what that can be, with all that is known when it is done. Later
modules take steps apart by `Pass.turn_step` alone and never look into the branches of `Pass.step`.
-/

namespace LiveMarkup

namespace Pass

variable {E : Type} {s : Pass E} {o n : E} {os ns : List E}

/-- The lists have no entry in common at their ends. -/
structure Apart (s : Pass E) : Prop where
  head : ∀ {e os ns}, s.old = e :: os → s.new ≠ e :: ns
  last : ∀ {e os ns}, s.old = os ++ [e] → s.new ≠ ns ++ [e]

/-- Lists that begin and end with other entries have no entry in common at their ends. -/
theorem apart_of_ne (ho : s.old = o :: os) (hn : s.new = n :: ns) (hne : o ≠ n)
    (hlast : os.getLastD o ≠ ns.getLastD n) : s.Apart where
  head ho' hn' := by
    rw [ho] at ho'
    rw [hn] at hn'
    exact hne ((List.cons.inj ho').1.trans (List.cons.inj hn').1.symm)
  last ho' hn' := by
    rw [ho, ← dropLast_append_getLastD] at ho'
    rw [hn, ← dropLast_append_getLastD] at hn'
    have hold := List.append_inj_right' ho' rfl
    have hnew := List.append_inj_right' hn' rfl
    exact hlast ((List.cons.inj hold).1.trans (List.cons.inj hnew).1.symm)

theorem apart_of_old_nil (ho : s.old = []) : s.Apart where
  head ho' := by simp [ho] at ho'
  last ho' := by simp [ho] at ho'

theorem apart_of_new_nil (hn : s.new = []) : s.Apart where
  head _ hn' := by simp [hn] at hn'
  last _ hn' := by simp [hn] at hn'

variable [DecidableEq E]

/-- Where the index of the pass has an entry. Without an index, one of all new entries is made. -/
def place? (s : Pass E) (e : E) : Option Nat :=
  (s.index.getD ⟨s.new, s.settled⟩).position? e

/-- The pass with an index, if it has none yet. -/
def withIndex (s : Pass E) : Pass E :=
  { s with index := some (s.index.getD ⟨s.new, s.settled⟩) }

/-- A step that does more than pass over an entry. -/
inductive Work (site : Site E) (s : Pass E) : Pass E → Prop where
  | placeRest (ho : s.old = []) (hn : s.new ≠ []) : Work site s (s.placeRest site)
  | removeRest (ho : s.old ≠ []) (hn : s.new = []) : Work site s (s.removeRest site)
  | exchangeLast {o n : E} (ho : s.old = [o]) (hn : s.new = [n]) :
      Work site s (s.exchangeLast site o n)
  | swapEnds {o z : E} {os ns : List E} (ho : s.old = o :: (os ++ [z]))
      (hn : s.new = z :: (ns ++ [o])) : Work site s (s.swapEnds site o z)
  | drop {o n : E} {os ns : List E} (ho : s.old = o :: os) (hn : s.new = n :: ns)
      (hplace : s.place? o = none) : Work site s { s.withIndex.remove site o with old := os }
  | placeRun {o n : E} {os ns : List E} {i : Nat} (ho : s.old = o :: os) (hn : s.new = n :: ns)
      (hplace : s.place? o = some i) (hlt : s.settled < i) (hin : i < s.settled + s.new.length) :
      Work site s
        { (s.withIndex.find site o .first).2.insertAll site (s.new.take (i - s.settled))
            (some (s.withIndex.find site o .first).1) with
          new := s.new.drop (i - s.settled)
          front := (s.new.take (i - s.settled)).reverse ++ s.front }
  | replace {o n : E} {os ns : List E} {i : Nat} (ho : s.old = o :: os) (hn : s.new = n :: ns)
      (hplace : s.place? o = some i) :
      Work site s
        { s.withIndex.replace site n o with old := os, new := ns, front := n :: s.front }
  | pass {o n : E} {os ns : List E} {i : Nat} (ho : s.old = o :: os) (hn : s.new = n :: ns)
      (hplace : s.place? o = some i) (hout : ¬ (s.settled < i ∧ i < s.settled + s.new.length)) :
      Work site s { s.withIndex with old := os }

/-- A step. -/
inductive Turn (site : Site E) (s : Pass E) : Pass E → Prop where
  | advance {n : E} {os ns : List E} (ho : s.old = n :: os) (hn : s.new = n :: ns) :
      Turn site s { s with old := os, new := ns, front := n :: s.front }
  | retreat {n : E} {os ns : List E} (ho : s.old = os ++ [n]) (hn : s.new = ns ++ [n]) :
      Turn site s { s with old := os, new := ns, back := n :: s.back }
  | work {s' : Pass E} (apart : s.Apart) (done : Work site s s') : Turn site s s'

theorem work_lookUp (site : Site E) (ho : s.old = o :: os) (hn : s.new = n :: ns) :
    Work site s (s.lookUp site o n) := by
  have hold : s.old.tail = os := by rw [ho, List.tail_cons]
  have hnew : s.new.tail = ns := by rw [hn, List.tail_cons]
  unfold lookUp
  dsimp only
  rw [hold, hnew]
  split
  · rename_i hplace
    exact .drop ho hn hplace
  · rename_i i hplace
    split_ifs with hin
    · exact .placeRun ho hn hplace hin.1 hin.2
    · exact .replace ho hn hplace
    · exact .pass ho hn hplace hin

/-- What a step is. -/
theorem turn_step (s : Pass E) (site : Site E) (h : ¬ s.isDone) : Turn site s (s.step site) := by
  unfold step
  split
  · rename_i ho
    have hnew : s.new ≠ [] := fun hn => h (by simp [isDone, ho, hn])
    exact .work (apart_of_old_nil ho) (.placeRest ho hnew)
  · rename_i ho hn
    exact .work (apart_of_new_nil hn) (.removeRest (by simp [ho]) hn)
  · rename_i o os n ns ho hn
    have holast := dropLast_append_getLastD o os
    have hnlast := dropLast_append_getLastD n ns
    split_ifs with heq hlast hone hswap
    · subst heq
      exact .advance ho hn
    · rw [← hlast] at hnlast ⊢
      exact .retreat (ho.trans holast.symm) (hn.trans hnlast.symm)
    · have hapart := apart_of_ne ho hn heq hlast
      rw [Bool.and_eq_true, List.isEmpty_iff, List.isEmpty_iff] at hone
      rw [hone.1] at ho
      rw [hone.2] at hn
      exact .work hapart (.exchangeLast ho hn)
    · have hapart := apart_of_ne ho hn heq hlast
      have hos : os ≠ [] := fun hnil => heq (by rw [hswap.2, hnil]; rfl)
      have hns : ns ≠ [] := fun hnil => heq (by rw [hswap.1, hnil]; rfl)
      rw [List.dropLast_cons_of_ne_nil hos, ← hswap.2, List.cons_append] at holast
      rw [List.dropLast_cons_of_ne_nil hns, ← hswap.1, List.cons_append] at hnlast
      exact .work hapart (.swapEnds (ho.trans holast.symm) (hn.trans hnlast.symm))
    · exact .work (apart_of_ne ho hn heq hlast) (work_lookUp site ho hn)

theorem run_of_isDone (site : Site E) (h : s.isDone) : s.run site = s := by
  rw [run, dif_pos h]

theorem run_of_not_isDone (site : Site E) (h : ¬ s.isDone) : s.run site = (s.step site).run site := by
  rw [run, dif_neg h]

end Pass

end LiveMarkup
