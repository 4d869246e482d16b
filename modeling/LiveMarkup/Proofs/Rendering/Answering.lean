import LiveMarkup.Proofs.Rendering.Mirror
import LiveMarkup.Proofs.Rendering.Places
/-!
# What a cache has in which place

What has been shown answers the roll of its plan (`Exhibit.answers_of_shows`): the cache has each instance at the
position of its post, and the instance that this is nested in where the post says. If the roll of the next plan
agrees with that, then of a plan whose top is not found again nothing is found again (`Plan.unmet`).
-/

namespace LiveMarkup

open Exhibit

/-! ### Answering a roll -/

/-- The instance that a place is in is the one at its position. -/
def Place.IsIn (posts : List (Form × Place)) : Place → Prop
  | .hole owner form _ => (posts[owner]?).map Prod.fst = some form
  | _ => True

/-- The list that the level of a roll is an item of. -/
def Roll.list? : Roll → Option Place
  | ⟨(_, .item place _) :: _, _⟩ => some place
  | _ => none

mutual

/-- A cache has the instances of a roll at their positions, and each of them is where it says that it is. -/
def Cache.Answers : Cache → Roll → Prop
  | ⟨is, cs, _⟩, ⟨posts, slots⟩ =>
    is.map Instance.use = posts.map Prod.fst ∧ (∀ post ∈ posts, post.2.IsIn posts) ∧ SlotsAnswer posts cs slots

/-- Some slots of a level have the instances of some rolls. -/
def SlotsAnswer (posts : List (Form × Place)) : List Cache → List Roll → Prop
  | c :: cs, r :: rs =>
    c.root = none ∧ c.Answers r ∧ (∀ list, r.list? = some list → list.IsIn posts) ∧ SlotsAnswer posts cs rs
  | [], [] => True
  | _, _ => False

end

theorem slotsAnswer_append {posts : List (Form × Place)} {cs cs' : List Cache} {rs rs' : List Roll}
    (h : SlotsAnswer posts cs rs) (h' : SlotsAnswer posts cs' rs') : SlotsAnswer posts (cs ++ cs') (rs ++ rs') := by
  induction cs generalizing rs with
  | nil =>
    cases rs with
    | nil => exact h'
    | cons => exact False.elim h
  | cons c cs ih =>
    cases rs with
    | nil => exact False.elim h
    | cons r rs => exact ⟨h.1, h.2.1, h.2.2.1, ih h.2.2.2⟩

theorem length_of_slotsAnswer {posts : List (Form × Place)} {cs : List Cache} {rs : List Roll}
    (h : SlotsAnswer posts cs rs) : cs.length = rs.length := by
  induction cs generalizing rs with
  | nil =>
    cases rs with
    | nil => rfl
    | cons => exact False.elim h
  | cons c cs ih =>
    cases rs with
    | nil => exact False.elim h
    | cons r rs => exact congrArg (· + 1) (ih h.2.2.2)

theorem slotsAnswer_drop {posts : List (Form × Place)} {cs : List Cache} {rs : List Roll}
    (h : SlotsAnswer posts cs rs) (n : Nat) : SlotsAnswer posts (cs.drop n) (rs.drop n) := by
  induction n generalizing cs rs with
  | zero => exact h
  | succ n ih =>
    cases cs with
    | nil =>
      cases rs with
      | nil => exact h
      | cons => exact False.elim h
    | cons c cs =>
      cases rs with
      | nil => exact False.elim h
      | cons r rs => exact ih h.2.2.2

namespace Exhibit

theorem uses_of_shows :
    (∀ (p : Plan) (x : Exhibit), x.Shows p → x.instances.map Instance.use = p.forms) ∧
      ∀ (ps : List Plan) (xs : List Exhibit), ShowsAll xs ps →
        (instancesAll xs).map Instance.use = formsAll ps := by
  refine Plan.induct ?_ ?_ ?_ ?_ ?_
  · intro v x hx
    rw [eq_leaf_of_shows hx]
    rfl
  · intro space template compiled holes ih x hx
    cases x with
    | leaf | list => exact False.elim hx
    | use i roots spots xs =>
      obtain ⟨rfl, rfl, -, -, -, -, -, hall⟩ := hx
      rw [instances, List.map_cons, ih xs hall]
      rfl
  · intro items _ x hx
    cases x with
    | leaf | use => exact False.elim hx
    | list => rfl
  · intro xs hxs
    cases xs with
    | nil => rfl
    | cons => exact False.elim hxs
  · intro p ps ihp ihps xs hxs
    cases xs with
    | nil => exact False.elim hxs
    | cons x xs => rw [instancesAll, List.map_append, ihp x hxs.1, ihps xs hxs.2, formsAll]

/-- What is asked for at a part of a level is in the place that it says. -/
theorem posts_isIn :
    (∀ (p : Plan) (before behind) {place position posts}, posts = before ++ p.posts place position ++ behind →
      before.length = position → place.IsIn posts → ∀ post ∈ p.posts place position, post.2.IsIn posts) ∧
    ∀ (ps : List Plan) (before behind) {owner form number position posts},
      posts = before ++ postsAll owner form number position ps ++ behind → before.length = position →
      (posts[owner]?).map Prod.fst = some form →
      ∀ post ∈ postsAll owner form number position ps, post.2.IsIn posts := by
  refine Plan.induct ?_ ?_ ?_ ?_ ?_
  · intro v before behind place position posts _ _ _ post hpost
    cases hpost
  · intro space template compiled holes ih before behind place position posts hposts hlength hplace
    rw [Plan.posts] at hposts ⊢
    refine List.forall_mem_cons.2 ⟨hplace, ih (before ++ [((space, template), place)]) behind
      (by rw [hposts]; simp) (by rw [List.length_append, hlength]; rfl) ?_⟩
    rw [hposts, List.append_assoc, List.getElem?_append_right (Nat.le_of_eq hlength), hlength, Nat.sub_self]
    rfl
  · intro items _ before behind place position posts _ _ _ post hpost
    cases hpost
  · intro before behind owner form number position posts _ _ _ post hpost
    cases hpost
  · intro p ps ihp ihps before behind owner form number position posts hposts hlength howner
    rw [postsAll] at hposts ⊢
    refine List.forall_mem_append.2 ⟨ihp before
      (postsAll owner form (number + 1) (position + p.forms.length) ps ++ behind)
      (by rw [hposts]; simp) hlength howner,
      ihps (before ++ p.posts (.hole owner form number) position) behind
      (by rw [hposts]; simp) (by rw [List.length_append, length_posts, hlength]) howner⟩

theorem list?_posts (p : Plan) (place : Place) (rolls : List Roll) (list : Place)
    (h : Roll.list? ⟨p.posts place 0, rolls⟩ = some list) : ∃ number, place = .item list number := by
  cases p with
  | leaf | list => cases h
  | use space template compiled holes =>
    cases place with
    | top | hole => cases h
    | item list' number =>
      cases h
      exact ⟨number, rfl⟩

/-- What has been shown of a plan answers the roll of the plan, slot by slot. -/
theorem slotsAnswer_of_shows :
    (∀ (p : Plan) (x : Exhibit) (before behind) {place position posts}, x.Shows p →
      posts = before ++ p.posts place position ++ behind → before.length = position → place.IsIn posts →
      SlotsAnswer posts x.slots (p.rolls place position)) ∧
    ∀ (ps : List Plan) (xs : List Exhibit), ShowsAll xs ps →
      (∀ (before behind) {owner form number position posts},
        posts = before ++ postsAll owner form number position ps ++ behind → before.length = position →
        (posts[owner]?).map Prod.fst = some form →
        SlotsAnswer posts (slotsAll xs) (rollsAll owner form number position ps)) ∧
      ∀ {list number posts}, list.IsIn posts → SlotsAnswer posts (slotsOfItems xs) (rollsOfItems list number ps) := by
  refine Plan.induct ?_ ?_ ?_ ?_ ?_
  · intro v x before behind place position posts hx _ _ _
    rw [eq_leaf_of_shows hx]
    trivial
  · intro space template compiled holes ih x before behind place position posts hx hposts hlength _
    cases x with
    | leaf | list => exact False.elim hx
    | use i roots spots xs =>
      obtain ⟨-, -, -, -, -, -, -, hall⟩ := hx
      rw [Plan.posts] at hposts
      refine (ih xs hall).1 (before ++ [((space, template), place)]) behind
        (by rw [hposts]; simp) (by rw [List.length_append, hlength]; rfl) ?_
      rw [hposts, List.append_assoc, List.getElem?_append_right (Nat.le_of_eq hlength), hlength, Nat.sub_self]
      rfl
  · intro items ih x before behind place position posts hx _ _ hplace
    cases x with
    | leaf | use => exact False.elim hx
    | list xs => exact (ih xs hx).2 hplace
  · intro xs hxs
    cases xs with
    | nil => exact ⟨fun _ _ {_ _ _ _ _} _ _ _ => trivial, fun _ => trivial⟩
    | cons => exact False.elim hxs
  · intro p ps ihp ihps xs hxs
    cases xs with
    | nil => exact False.elim hxs
    | cons x xs =>
      obtain ⟨hx, hxs⟩ := hxs
      refine ⟨fun before behind {owner form number position posts} hposts hlength howner => ?_,
        fun {list number posts} hlist => ?_⟩
      · rw [postsAll] at hposts
        rw [slotsAll, rollsAll]
        exact slotsAnswer_append (ihp x before
          (postsAll owner form (number + 1) (position + p.forms.length) ps ++ behind) hx
          (by rw [hposts]; simp) hlength howner)
          ((ihps xs hxs).1 (before ++ p.posts (.hole owner form number) position) behind
            (by rw [hposts]; simp) (by rw [List.length_append, length_posts, hlength]) howner)
      · have hitem : SlotsAnswer posts [⟨x.instances, x.slots, none⟩]
            [⟨p.posts (.item list number) 0, p.rolls (.item list number) 0⟩] := by
          refine ⟨rfl, ⟨?_, posts_isIn.1 p [] [] (by simp) rfl trivial,
            ihp x [] [] hx (by simp) rfl trivial⟩, fun place hplace => ?_, trivial⟩
          · rw [uses_of_shows.1 p x hx, map_fst_posts.1]
          · obtain ⟨number, h⟩ := list?_posts p _ _ _ hplace
            cases h
            exact hlist
        have hrest : ∀ number, SlotsAnswer posts (slotsOfItems xs) (rollsOfItems list number ps) :=
          fun _ => (ihps xs hxs).2 hlist
        cases p with
        | leaf =>
          rw [eq_leaf_of_shows hx]
          exact hrest number
        | use =>
          cases x with
          | leaf | list => exact False.elim hx
          | use => exact slotsAnswer_append hitem (hrest _)
        | list =>
          cases x with
          | leaf | use => exact False.elim hx
          | list => exact slotsAnswer_append hitem (hrest _)

/-- What has been shown of a plan answers the roll of the plan. -/
theorem answers_of_shows {x : Exhibit} {p : Plan} (hx : x.Shows p) (root : Option Block) :
    Cache.Answers ⟨x.instances, x.slots, root⟩ p.roll :=
  ⟨by rw [uses_of_shows.1 p x hx, map_fst_posts.1], posts_isIn.1 p [] [] (by simp) rfl trivial,
    slotsAnswer_of_shows.1 p x [] [] hx (by simp) rfl trivial⟩

end Exhibit

/-! ### What is not found again -/

/-- The place of the instance at the top of a roll. -/
def Roll.place? : Roll → Option Place
  | ⟨posts, _⟩ => posts.head?.map Prod.snd

/-- Nothing is in a place of a level. -/
structure Absent (posts : List (Form × Place)) (rolls : List Roll) (place : Place) : Prop where
  post : ∀ post ∈ posts, post.2 ≠ place
  roll : ∀ r ∈ rolls, ∀ number, Roll.place? r ≠ some (.item place number)

/-- What is at the top of a plan is not found again on a level. -/
def Plan.Unmet (place : Place) (position slot : Nat) (posts : List (Form × Place)) (rolls : List Roll) : Plan → Prop
  | .leaf _ => True
  | .use space template _ _ => ∀ post, posts[position]? = some post → post.1 ≠ (space, template)
  | .list _ => ∀ k r, (rolls.drop slot)[k]? = some r → Roll.place? r ≠ some (.item place k)

section Unmet

variable {posts : List (Form × Place)} {rolls rs : List Roll} {is : List Instance} {cs : List Cache}
  {root : Option Block} {place : Place} {p : Plan} {ps : List Plan} {position slot : Nat}

theorem list?_of_place? {r : Roll} {number : Nat} (h : r.place? = some (.item place number)) :
    r.list? = some place := by
  obtain ⟨posts, rolls⟩ := r
  cases posts with
  | nil => cases h
  | cons post posts =>
    obtain ⟨form, _⟩ := post
    cases h
    rfl

theorem isIn_of_slotsAnswer (h : SlotsAnswer posts cs rs) {r : Roll} (hr : r ∈ rs) (hlist : r.list? = some place) :
    place.IsIn posts := by
  induction rs generalizing cs with
  | nil => cases hr
  | cons r' rs ih =>
    cases cs with
    | nil => exact False.elim h
    | cons c cs =>
      rcases List.mem_cons.1 hr with rfl | hr
      · exact h.2.2.1 place hlist
      · exact ih h.2.2.2 hr

/-- Nothing is in the holes of an instance that is not there. -/
theorem absent_hole (h : Cache.Answers ⟨is, cs, root⟩ ⟨posts, rolls⟩) {form : Form}
    (hhead : ∀ post, posts[position]? = some post → post.1 ≠ form) (number : Nat) :
    Absent posts rolls (.hole position form number) := by
  have hout : ¬ (Place.hole position form number).IsIn posts := by
    intro hin
    obtain ⟨post, hpost, rfl⟩ := Option.map_eq_some_iff.1 hin
    exact hhead post hpost rfl
  exact ⟨fun post hpost he => hout (he ▸ h.2.1 post hpost),
    fun r hr number he => hout (isIn_of_slotsAnswer h.2.2 hr (list?_of_place? he))⟩

/-- What is found again is where the plan has it. -/
theorem place_of_agree {space : Markup.Namespace} {template : Template} {compiled : Compiled} {holes : List Plan}
    (position : Nat)
    (h : PostsAgree (posts.drop position) ((Plan.use space template compiled holes).posts place position))
    {post : Form × Place} (hpost : posts[position]? = some post) (he : post.1 = (space, template)) :
    post.2 = place := by
  obtain ⟨hlt, rfl⟩ := List.getElem?_eq_some_iff.1 hpost
  rw [List.drop_eq_getElem_cons hlt, Plan.posts] at h
  exact h.1 he

/-- In a place where nothing is, nothing is found again. -/
theorem Absent.unmet (h : Absent posts rolls place)
    (hposts : PostsAgree (posts.drop position) (p.posts place position)) : p.Unmet place position slot posts rolls := by
  cases p with
  | leaf => trivial
  | use space template compiled holes =>
    exact fun post hpost he => h.post post (List.mem_of_getElem? hpost) (place_of_agree position hposts hpost he)
  | list items => exact fun k r hr => h.roll r (List.mem_of_mem_drop (List.mem_of_getElem? hr)) k

end Unmet

/-- If what is at the top of a plan is not found again, nothing of the plan is. -/
def Plan.AllUnmet (p : Plan) : Prop :=
  ∀ {is cs root posts rolls place position slot}, Cache.Answers ⟨is, cs, root⟩ ⟨posts, rolls⟩ →
    p.Unmet place position slot posts rolls → PostsAgree (posts.drop position) (p.posts place position) →
    RollsAgree (rolls.drop slot) (p.rolls place position) →
    Misses (is.drop position) p.forms ∧ SlotsMiss (cs.drop slot) p.decks

/-- If nothing is in the holes of an instance on a level, nothing of the plans for the holes is found again. -/
def HolesUnmet (ps : List Plan) : Prop :=
  ∀ {is cs root posts rolls owner form number position slot}, Cache.Answers ⟨is, cs, root⟩ ⟨posts, rolls⟩ →
    (∀ number, Absent posts rolls (.hole owner form number)) →
    PostsAgree (posts.drop position) (postsAll owner form number position ps) →
    RollsAgree (rolls.drop slot) (rollsAll owner form number position ps) →
    Misses (is.drop position) (formsAll ps) ∧ SlotsMiss (cs.drop slot) (decksAll ps)

/-- If none of the items of a list is found again, nothing that is in them is. -/
def ItemsUnmet (ps : List Plan) : Prop :=
  ∀ {posts cs rs place number}, SlotsAnswer posts cs rs →
    (∀ k r, rs[k]? = some r → Roll.place? r ≠ some (.item place (number + k))) →
    RollsAgree rs (rollsOfItems place number ps) → SlotsMiss cs (decksOfItems ps)

theorem itemsUnmet_cons {space : Markup.Namespace} {template : Template} {compiled : Compiled} {holes ps : List Plan}
    (hp : Plan.AllUnmet (.use space template compiled holes)) (hps : ItemsUnmet ps) :
    ItemsUnmet (.use space template compiled holes :: ps) := by
  intro posts cs rs place number h hout hrolls
  cases rs with
  | nil =>
    cases cs with
    | nil => exact slotsMiss_nil _
    | cons => exact False.elim h
  | cons r rs =>
    cases cs with
    | nil => exact False.elim h
    | cons c cs =>
      obtain ⟨is, cs', root⟩ := c
      obtain ⟨as, ss⟩ := r
      obtain ⟨hroot, hanswers, -, hrest⟩ := h
      obtain ⟨⟨hposts, hslots⟩, hagree⟩ := hrolls
      have hhead : Plan.Unmet (.item place number) 0 0 as ss (.use space template compiled holes) := by
        intro post hpost he
        refine hout 0 ⟨as, ss⟩ rfl ?_
        rw [Roll.place?, List.head?_eq_getElem?, hpost, Option.map_some, place_of_agree 0 hposts hpost he]
        rfl
      obtain ⟨hmisses, hslotsMiss⟩ := hp hanswers hhead hposts hslots
      refine ⟨⟨hroot, hmisses, hslotsMiss⟩, hps hrest (fun k r hr => ?_) hagree⟩
      rw [Nat.add_assoc, Nat.add_comm 1 k]
      exact hout (k + 1) r hr

theorem decksOfItems_leaves (vs : List Value) : decksOfItems (vs.map .leaf) = [] := by
  induction vs with
  | nil => rfl
  | cons v vs ih => exact ih

theorem Plan.unmet :
    (∀ p : Plan, p.Fits → p.AllUnmet) ∧ ∀ ps : List Plan, (∀ p ∈ ps, p.Fits) → HolesUnmet ps ∧
      ((∀ p ∈ ps, ∃ space template compiled holes, p = .use space template compiled holes) → ItemsUnmet ps) := by
  refine Plan.induct ?_ ?_ ?_ ?_ ?_
  · intro v _ is cs root posts rolls place position slot _ _ _ _
    exact ⟨by cases is.drop position <;> trivial, by cases cs.drop slot <;> trivial⟩
  · intro space template compiled holes ih hfits is cs root posts rolls place position slot h hhead hposts hrolls
    have hfits : ∀ p ∈ holes, p.Fits := by
      cases hfits with
      | use _ _ _ hfits => exact hfits
    have habsent := absent_hole h hhead
    rw [Plan.posts, ← List.singleton_append, postsAgree_append, List.length_singleton, List.drop_drop] at hposts
    obtain ⟨hmisses, hslots⟩ := (ih hfits).1 h habsent hposts.2 hrolls
    refine ⟨?_, hslots⟩
    rw [Plan.forms]
    cases hrest : is.drop position with
    | nil => exact misses_nil _
    | cons i is' =>
      have hi : is[position]? = some i := by
        rw [← List.head?_drop, hrest]
        rfl
      have huse := congrArg (·[position]?) h.1
      simp only [List.getElem?_map, hi] at huse
      obtain ⟨post, hpost, he⟩ := Option.map_eq_some_iff.1 huse.symm
      refine ⟨?_, ?_⟩
      · cases hof : i.isOf space template with
        | false => rfl
        | true => exact absurd (he.trans (Instance.isOf_iff.1 hof)) (hhead post hpost)
      · have htail : is' = is.drop (position + 1) := by
          rw [← List.drop_drop, hrest]
          rfl
        rw [htail]
        exact hmisses
  · intro items ih hfits is cs root posts rolls place position slot h hhead hposts hrolls
    refine ⟨by cases is.drop position <;> trivial, ?_⟩
    cases hfits with
    | list hfits huses =>
      refine (ih hfits).2 huses (slotsAnswer_drop h.2.2 slot) (fun k r hr => ?_) hrolls
      rw [Nat.zero_add]
      exact hhead k r hr
    | @texts v rest =>
      rw [Plan.decks, decksOfItems_leaves]
      cases cs.drop slot <;> trivial
  · intro _
    refine ⟨fun {is cs root posts rolls owner form number position slot} _ _ _ _ => ?_,
      fun _ {posts cs rs place number} _ _ _ => by cases cs <;> trivial⟩
    exact ⟨by cases is.drop position <;> trivial, by cases cs.drop slot <;> trivial⟩
  · intro p ps ihp ihps hfits
    have hp : p.AllUnmet := ihp (hfits p (List.mem_cons_self ..))
    obtain ⟨hholes, hitems⟩ := ihps fun p hp => hfits p (List.mem_cons_of_mem _ hp)
    refine ⟨fun {is cs root posts rolls owner form number position slot} h habsent hposts hrolls => ?_,
      fun huses => ?_⟩
    · rw [postsAll, postsAgree_append, length_posts, List.drop_drop] at hposts
      rw [rollsAll, rollsAgree_append, length_rolls.1, List.drop_drop] at hrolls
      obtain ⟨hmisses, hslots⟩ := hp h ((habsent number).unmet hposts.1) hposts.1 hrolls.1
      obtain ⟨hmisses', hslots'⟩ := hholes h habsent hposts.2 hrolls.2
      rw [formsAll, decksAll, misses_append, slotsMiss_append, List.drop_drop, List.drop_drop]
      exact ⟨⟨hmisses, hmisses'⟩, hslots, hslots'⟩
    · obtain ⟨space, template, compiled, holes, rfl⟩ := huses p (List.mem_cons_self ..)
      exact itemsUnmet_cons hp (hitems fun p hp => huses p (List.mem_cons_of_mem _ hp))

end LiveMarkup
