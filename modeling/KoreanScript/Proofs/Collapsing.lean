import KoreanScript.Proofs.Causes

/-!
# How groups are collapsed

A list with groups is reduced in a loop.  Each round looks for the first closing
parenthesis and for the last opening one before it, reduces what stands between the two,
and puts its value in place of all of them.  Between the two there are no parentheses at
all, be the list balanced or not: none closes before the first one, and none opens after
the last.  So the reduction inside of a round never comes to a round of its own, and
reductions are nested in each other two deep at most, however deep the parentheses are.

A round takes away one opening and one closing parenthesis, and nothing else changes
around the group.  Hence there are not more rounds than opening parentheses.
-/

set_option autoImplicit false

namespace KoreanScript

/-! ## The places of a group -/

/-- The places of the group that closes first: `stop` is that of the first closing
parenthesis, and `start` that of the last opening one before it. -/
structure ClosesFirst (items : List Item) (start stop : Nat) : Prop where
  opens : items[start]? = some .leftParen
  closes : items[stop]? = some .rightParen
  before : start < stop
  last : ∀ place < stop, start < place → items[place]? ≠ some .leftParen
  first : ∀ place < stop, items[place]? ≠ some .rightParen

/-- What stands between two places. -/
def between (items : List Item) (start stop : Nat) : List Item :=
  (items.drop (start + 1)).take (stop - start - 1)

/-- A value in place of a group that stands between two places. -/
def collapsed (items : List Item) (start stop : Nat) (value : Value) : List Item :=
  items.take start ++ .value value :: items.drop (stop + 1)

section Places

variable {items : List Item} {start stop : Nat}

theorem getElem?_between {place : Nat} (h : place < stop - start - 1) :
    (between items start stop)[place]? = items[start + 1 + place]? := by
  rw [between, List.getElem?_take, if_pos h, List.getElem?_drop]

/-- What stands between the two places of a group has no parentheses. -/
theorem ClosesFirst.isFlat (h : ClosesFirst items start stop) :
    ∀ item ∈ between items start stop, item.IsFlat := by
  intro item hitem
  obtain ⟨place, hplace⟩ := List.mem_iff_getElem?.mp hitem
  have hroom : place < stop - start - 1 := by
    have hlength := (List.getElem?_eq_some_iff.mp hplace).1
    rw [between, List.length_take] at hlength
    omega
  rw [getElem?_between hroom] at hplace
  have hleft := h.last (start + 1 + place) (by omega) (by omega)
  have hright := h.first (start + 1 + place) (by omega)
  rw [hplace] at hleft hright
  cases item <;> first | exact absurd rfl hleft | exact absurd rfl hright | exact ⟨rfl, rfl⟩

/-- Before a group that closes first nothing is closed. -/
theorem ClosesFirst.isRightParen_of_mem_take (h : ClosesFirst items start stop) :
    ∀ item ∈ items.take start, item.isRightParen = false := by
  intro item hitem
  obtain ⟨place, hplace⟩ := List.mem_iff_getElem?.mp hitem
  have hroom : place < start := by
    have hlength := (List.getElem?_eq_some_iff.mp hplace).1
    rw [List.length_take] at hlength
    omega
  have hbefore := h.before
  have hright := h.first place (by omega)
  rw [List.getElem?_take, if_pos hroom] at hplace
  rw [hplace] at hright
  cases item <;> first | exact absurd rfl hright | rfl

/-- A list falls into what stands before, in and after a group. -/
theorem ClosesFirst.split (h : ClosesFirst items start stop) :
    items.take start ++ .leftParen :: between items start stop ++
      .rightParen :: items.drop (stop + 1) = items := by
  obtain ⟨hstart, hopens⟩ := List.getElem?_eq_some_iff.mp h.opens
  obtain ⟨hstop, hcloses⟩ := List.getElem?_eq_some_iff.mp h.closes
  have hbefore := h.before
  have htail : between items start stop ++ .rightParen :: items.drop (stop + 1) =
      items.drop (start + 1) := by
    have hrest : (items.drop (start + 1)).drop (stop - start - 1) =
        .rightParen :: items.drop (stop + 1) := by
      rw [List.drop_drop, show start + 1 + (stop - start - 1) = stop by omega,
        List.drop_eq_getElem_cons hstop, hcloses]
    rw [between, ← hrest, List.take_append_drop]
  calc items.take start ++ .leftParen :: between items start stop ++
        .rightParen :: items.drop (stop + 1)
    _ = items.take start ++ .leftParen :: items.drop (start + 1) := by
      rw [List.append_assoc, List.cons_append, htail]
    _ = items.take start ++ items.drop start := by
      rw [List.drop_eq_getElem_cons hstart, hopens]
    _ = items := List.take_append_drop start items

/-- **The group between the two places is the one that is reduced.** -/
theorem ClosesFirst.innermostGroup?_eq (h : ClosesFirst items start stop) :
    innermostGroup? items =
      some ⟨items.take start, between items start stop, items.drop (stop + 1)⟩ := by
  conv => lhs; rw [← h.split]
  exact innermostGroup?_of_isFlat h.isRightParen_of_mem_take h.isFlat _

end Places

/-- A parenthesis that closes, after a flat list behind one that opens, has that list as its
group. -/
theorem closesFirst_of_split {before inner : List Item}
    (hbefore : ∀ item ∈ before, item.isRightParen = false)
    (hinner : ∀ item ∈ inner, item.IsFlat) (after : List Item) :
    ClosesFirst (before ++ .leftParen :: inner ++ .rightParen :: after) before.length
      (before.length + 1 + inner.length) := by
  have hfront (place : Nat) (h : place < before.length) :
      (before ++ .leftParen :: inner ++ .rightParen :: after)[place]? = before[place]? := by
    rw [List.append_assoc, List.getElem?_append_left h]
  have hopens : (before ++ .leftParen :: inner ++ .rightParen :: after)[before.length]? =
      some .leftParen := by simp
  have hinside (place : Nat) (h : place < inner.length) :
      (before ++ .leftParen :: inner ++ .rightParen :: after)[before.length + 1 + place]? =
        inner[place]? := by
    rw [List.append_assoc, List.getElem?_append_right (by omega), List.cons_append,
      show before.length + 1 + place - before.length = place + 1 by omega, List.getElem?_cons_succ,
      List.getElem?_append_left h]
  have hlength : (before ++ Item.leftParen :: inner).length = before.length + 1 + inner.length := by
    rw [List.length_append, List.length_cons]
    omega
  refine ⟨hopens, ?_, by omega, ?_, ?_⟩
  · rw [List.getElem?_append_right hlength.le, hlength, Nat.sub_self]
    rfl
  · intro place hstop hstart hleft
    obtain ⟨offset, rfl⟩ := Nat.exists_eq_add_of_le (Nat.succ_le_of_lt hstart)
    rw [Nat.succ_eq_add_one, hinside offset (by omega)] at hleft
    cases (hinner _ (List.mem_of_getElem? hleft)).1
  · intro place hstop hright
    rcases Nat.lt_trichotomy place before.length with hlt | rfl | hgt
    · rw [hfront place hlt] at hright
      cases hbefore _ (List.mem_of_getElem? hright)
    · cases hopens.symm.trans hright
    · obtain ⟨offset, rfl⟩ := Nat.exists_eq_add_of_le (Nat.succ_le_of_lt hgt)
      rw [Nat.succ_eq_add_one, hinside offset (by omega)] at hright
      cases (hinner _ (List.mem_of_getElem? hright)).2

/-- Before the group that is found nothing is closed. -/
theorem isRightParen_of_mem_before {items : List Item} {group : Group}
    (h : innermostGroup? items = some group) : ∀ item ∈ group.before, item.isRightParen = false := by
  unfold innermostGroup? at h
  simp only at h
  split at h
  · next hdrop =>
    cases h
    intro item hitem
    have hback := hdrop ▸ List.mem_cons_of_mem _ (List.mem_reverse.mp hitem)
    have hfront := List.mem_reverse.mp ((List.dropWhile_suffix _).mem hback)
    simpa using List.mem_takeWhile_imp hfront
  · cases h

/-- **A group is found just if a parenthesis closes one.** -/
theorem exists_closesFirst_iff {items : List Item} :
    (∃ start stop, ClosesFirst items start stop) ↔ innermostGroup? items ≠ none := by
  constructor
  · rintro ⟨start, stop, hplaces⟩
    rw [hplaces.innermostGroup?_eq]
    exact Option.some_ne_none _
  · intro hfound
    obtain ⟨group, hgroup⟩ := Option.ne_none_iff_exists'.mp hfound
    have hplaces := closesFirst_of_split (isRightParen_of_mem_before hgroup)
      (isFlat_of_mem_inner hgroup) group.after
    rw [← Group.items, items_of_innermostGroup? hgroup] at hplaces
    exact ⟨_, _, hplaces⟩

/-! ## Rounds -/

/-- The rounds of a reduction: a list and what it has become after a number of completed
rounds. -/
inductive Collapses (items : List Item) : Nat → List Item → Prop where
  | start : Collapses items 0 items
  | round {rounds : Nat} {current : List Item} {start stop : Nat} {value : Value}
      (earlier : Collapses items rounds current) (found : ClosesFirst current start stop)
      (reduced : reduce (between current start stop) = .ok value) :
      Collapses items (rounds + 1) (collapsed current start stop value)

section Rounds

variable {items : List Item} {start stop : Nat}

/-- The reduction inside of a round is the two passes. -/
theorem ClosesFirst.reduce_between (h : ClosesFirst items start stop) :
    reduce (between items start stop) = evaluateFlat (between items start stop) :=
  reduce_of_isFlat h.isFlat

/-- **A round** reduces the group without any further round, and goes on with its value in
the place of the group. -/
theorem ClosesFirst.reduce_eq (h : ClosesFirst items start stop) :
    reduce items = (do
      let value ← evaluateFlat (between items start stop)
      reduce (collapsed items start stop value)) := by
  have hgroup := h.innermostGroup?_eq
  rw [reduce, if_pos (any_isLeftParen_of_innermostGroup? hgroup)]
  split
  · next found hfound =>
    obtain rfl := Option.some.inj (hgroup.symm.trans hfound)
    rw [h.reduce_between]
    rfl
  · next hnone => cases hgroup.symm.trans hnone

/-- Where no parenthesis closes a group, parentheses that are left have no partner. -/
theorem reduce_of_not_closesFirst (h : ¬∃ start stop, ClosesFirst items start stop) :
    reduce items =
      if .leftParen ∈ items ∨ .rightParen ∈ items then .error .unbalancedParens
      else evaluateFlat items := by
  rw [exists_closesFirst_iff, not_ne_iff] at h
  have hleft : items.any Item.isLeftParen = true ↔ .leftParen ∈ items := by
    simp [Item.isLeftParen_iff]
  have hright : items.any Item.isRightParen = true ↔ .rightParen ∈ items := by
    simp [Item.isRightParen_iff]
  rw [reduce]
  split
  · next hopens =>
    rw [if_pos (.inl (hleft.mp hopens))]
    split
    · next group hgroup => cases h.symm.trans hgroup
    · rfl
  · next hopens =>
    split
    · next hcloses => rw [if_pos (.inr (hright.mp hcloses))]
    · next hcloses =>
      rw [if_neg]
      exact not_or.mpr ⟨mt hleft.mpr hopens, mt hright.mpr hcloses⟩

/-- A round takes one opening and one closing parenthesis away. -/
theorem ClosesFirst.count_collapsed (h : ClosesFirst items start stop) (value : Value) :
    (collapsed items start stop value).count .leftParen + 1 = items.count .leftParen ∧
      (collapsed items start stop value).count .rightParen + 1 = items.count .rightParen := by
  have hleft : (between items start stop).count .leftParen = 0 :=
    List.count_eq_zero.mpr fun hmem => nomatch (h.isFlat _ hmem).1
  have hright : (between items start stop).count .rightParen = 0 :=
    List.count_eq_zero.mpr fun hmem => nomatch (h.isFlat _ hmem).2
  have hcount (paren : Item) := congrArg (List.count paren) h.split
  simp only [List.count_append, List.count_cons] at hcount
  simp only [collapsed, List.count_append, List.count_cons, ← hcount, hleft, hright]
  simp only [beq_iff_eq, reduceCtorEq, if_false, BEq.rfl, if_true]
  omega

namespace Collapses

variable {rounds : Nat} {current : List Item}

/-- Rounds do not change the result. -/
theorem reduce_eq (h : Collapses items rounds current) : reduce items = reduce current := by
  induction h with
  | start => rfl
  | round _ found reduced ih =>
    rw [ih, found.reduce_eq, ← found.reduce_between, reduced]
    rfl

/-- Every round has taken away one opening and one closing parenthesis. -/
theorem count_add (h : Collapses items rounds current) :
    current.count .leftParen + rounds = items.count .leftParen ∧
      current.count .rightParen + rounds = items.count .rightParen := by
  induction h with
  | start => exact ⟨rfl, rfl⟩
  | @round _ _ _ _ value _ found _ ih =>
    have hround := found.count_collapsed value
    omega

end Collapses

end Rounds

/-! ## How deep reductions are nested -/

/-- Reduction with at most `depth` reductions nested in each other.  There is no answer where
more of them are needed. -/
def reduceWithin : Nat → List Item → Option (Except Cause Value)
  | 0, _ => none
  | depth + 1, items =>
    if items.any Item.isLeftParen then
      match _h : innermostGroup? items with
      | some group =>
        match reduceWithin depth group.inner with
        | some (.ok value) => reduceWithin (depth + 1) (group.replace value)
        | failure => failure
      | none => some (.error .unbalancedParens)
    else if items.any Item.isRightParen then some (.error .unbalancedParens)
    else some (evaluateFlat items)
termination_by depth items => (depth, items.length)
decreasing_by
  · exact Prod.Lex.left _ _ (Nat.lt_succ_self depth)
  · exact Prod.Lex.right _ (length_replace_lt _h value)

/-- A list without parentheses needs no nested reduction. -/
theorem reduceWithin_of_isFlat {items : List Item} (h : ∀ item ∈ items, item.IsFlat)
    (depth : Nat) : reduceWithin (depth + 1) items = some (evaluateFlat items) := by
  have hleft : items.any Item.isLeftParen = false :=
    List.any_eq_false.mpr fun item hitem => by simp [(h item hitem).1]
  have hright : items.any Item.isRightParen = false :=
    List.any_eq_false.mpr fun item hitem => by simp [(h item hitem).2]
  rw [reduceWithin, hleft, hright]
  rfl

/-- **Two reductions in each other are always enough.** -/
theorem reduceWithin_eq (depth : Nat) (items : List Item) :
    reduceWithin (depth + 2) items = some (reduce items) := by
  fun_induction reduce items with
  | case1 items hleft group hgroup _ ihreplace =>
    have hinner := isFlat_of_mem_inner hgroup
    rw [reduceWithin, if_pos hleft]
    split
    · next found hfound =>
      obtain rfl := Option.some.inj (hgroup.symm.trans hfound)
      rw [reduceWithin_of_isFlat hinner, reduce_of_isFlat hinner]
      cases evaluateFlat group.inner with
      | ok value => exact ihreplace value
      | error cause => rfl
    · next hnone => cases hgroup.symm.trans hnone
  | case2 items hleft hnone =>
    rw [reduceWithin, if_pos hleft]
    split
    · next found hfound => cases hnone.symm.trans hfound
    · rfl
  | case3 items hleft hright => rw [reduceWithin, if_neg hleft, if_pos hright]
  | case4 items hleft hright => rw [reduceWithin, if_neg hleft, if_neg hright]

/-- **Groups are collapsed one level deep.**  Whatever a list has become after some rounds,
its reduction has the result of the list, and each round has taken away one opening and one
closing parenthesis, so there are not more rounds than opening parentheses.  The next round
finds no parentheses between its two places, so no round is made inside of it; it puts a
value there and leaves alone what stands before and after.  Where there is no next round,
parentheses that are left are unbalanced.  Two reductions nested in each other are enough for
every list. -/
theorem collapses_one_level (items : List Item) :
    (∀ rounds current, Collapses items rounds current →
      reduce items = reduce current ∧
      current.count .leftParen + rounds = items.count .leftParen ∧
      current.count .rightParen + rounds = items.count .rightParen ∧
      (∀ start stop, ClosesFirst current start stop →
        (∀ item ∈ between current start stop, item.IsFlat) ∧
        (∀ more later, Collapses (between current start stop) more later → more = 0) ∧
        reduce current = (do
          let value ← evaluateFlat (between current start stop)
          reduce (current.take start ++ .value value :: current.drop (stop + 1)))) ∧
      ((¬∃ start stop, ClosesFirst current start stop) →
        reduce current =
          if .leftParen ∈ current ∨ .rightParen ∈ current then .error .unbalancedParens
          else evaluateFlat current)) ∧
    ∀ depth, reduceWithin (depth + 2) items = some (reduce items) := by
  refine ⟨fun rounds current hrounds => ?_, fun depth => reduceWithin_eq depth items⟩
  refine ⟨hrounds.reduce_eq, hrounds.count_add.1, hrounds.count_add.2, fun start stop hplaces => ?_,
    reduce_of_not_closesFirst⟩
  refine ⟨hplaces.isFlat, fun more later hmore => ?_, hplaces.reduce_eq⟩
  have hnone : (between current start stop).count .leftParen = 0 :=
    List.count_eq_zero.mpr fun hmem => nomatch (hplaces.isFlat _ hmem).1
  have hcount := hmore.count_add.1
  omega

/-- A group in a group, and a parenthesis too many after them: the inner group is collapsed,
then the outer one, and the parenthesis that is left is unbalanced. -/
theorem collapses_one_level_unbalanced :
    let ga : Value := .text "가"
    let items : List Item := [.leftParen, .leftParen, .value ga, .rightParen, .operator .plus,
      .value ga, .rightParen, .rightParen]
    let outer : List Item := [.leftParen, .value ga, .operator .plus, .value ga, .rightParen,
      .rightParen]
    ClosesFirst items 1 3 ∧ Collapses items 1 outer ∧ ClosesFirst outer 0 4 ∧
      (∀ item ∈ between outer 0 4, item.IsFlat) ∧ reduce items = reduce outer ∧
      outer.count .leftParen + 1 = items.count .leftParen ∧
      reduceWithin 2 items = some (.error .unbalancedParens) ∧ reduceWithin 1 items = none := by
  intro ga items outer
  have hinner : ClosesFirst items 1 3 := ⟨rfl, rfl, by decide, by decide, by decide⟩
  have hround : Collapses items 1 outer := .round .start hinner (by decide +kernel)
  have houter : ClosesFirst outer 0 4 := ⟨rfl, rfl, by decide, by decide, by decide⟩
  obtain ⟨hrounds, hdepth⟩ := collapses_one_level items
  obtain ⟨hreduce, hleft, -, hplaces, -⟩ := hrounds 1 outer hround
  have hresult : reduce items = .error .unbalancedParens := by decide +kernel
  refine ⟨hinner, hround, houter, (hplaces 0 4 houter).1, hreduce, hleft, ?_, by cbv⟩
  rw [hdepth 0, hresult]

end KoreanScript
