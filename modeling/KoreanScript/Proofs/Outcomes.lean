import Mathlib.Data.List.TakeWhile
import KoreanScript.Proofs.Grammar

/-!
# Outcomes of evaluation

A computation ends with a value or with an error, and what is claimed of it is often a
claim on both: if all that it starts from is of some kind, its value is of that kind,
and only some errors may occur.

For the evaluation of expressions such a claim is proved once.  It holds of whole lists
if it holds of single operators (`Preserved.reduce`).  A claim on the form of a list
rather than on its items is carried through the reduction of groups
(`yields_reduce_of_groups`).  There the inside of the group is always a list without
parentheses.
-/

set_option autoImplicit false

namespace KoreanScript

/-! ## Both ways to end -/

section Yields

variable {ε α β : Type} {good : α → Prop} {good' : β → Prop} {bad : ε → Prop}

/-- A computation whose value, if it has one, is good, and whose error otherwise is one of
those that may occur. -/
def Yields (good : α → Prop) (bad : ε → Prop) : Except ε α → Prop
  | .ok value => good value
  | .error e => bad e

theorem Yields.value {first : Except ε α} {value : α} (h : Yields good bad first)
    (hvalue : first = .ok value) : good value := by
  rwa [hvalue] at h

theorem Yields.error {first : Except ε α} {e : ε} (h : Yields good bad first)
    (herror : first = .error e) : bad e := by
  rwa [herror] at h

/-- Nothing is lost if more values count as good. -/
theorem Yields.mono {better : α → Prop} {first : Except ε α} (h : Yields good bad first)
    (hgood : ∀ value, good value → better value) : Yields better bad first := by
  cases first with
  | ok value => exact hgood value h
  | error e => exact h

theorem Yields.bind {first : Except ε α} {next : α → Except ε β} (h : Yields good bad first)
    (hnext : ∀ value, good value → Yields good' bad (next value)) :
    Yields good' bad (first >>= next) := by
  cases first with
  | ok value => exact hnext value h
  | error e => exact h

theorem Yields.map {first : Except ε α} {f : α → β} (h : Yields good bad first)
    (hf : ∀ value, good value → good' (f value)) : Yields good' bad (f <$> first) := by
  cases first with
  | ok value => exact hf value h
  | error e => exact h

theorem Yields.mapError {ε' : Type} {bad' : ε' → Prop} {first : Except ε α} {f : ε → ε'}
    (h : Yields good bad first) (hf : ∀ e, bad e → bad' (f e)) :
    Yields good bad' (first.mapError f) := by
  cases first with
  | ok value => exact h
  | error e => exact hf e h

theorem yields_some {b : β} (h : good' b) :
    Yields (fun found => ∀ b ∈ found, good' b) bad (.ok (some b)) := by
  rintro found ⟨⟩
  exact h

theorem yields_none : Yields (fun found : Option β => ∀ b ∈ found, good' b) bad (.ok none) :=
  nofun

/-- What is found in a list is good if it is for each element. -/
theorem yields_filterMapM {f : α → Except ε (Option β)} {elements : List α}
    (h : ∀ element ∈ elements, Yields (fun found => ∀ b ∈ found, good' b) bad (f element)) :
    Yields (fun found => ∀ b ∈ found, good' b) bad (elements.filterMapM f) := by
  induction elements with
  | nil => exact List.forall_mem_nil _
  | cons element others ih =>
    obtain ⟨helement, hothers⟩ := List.forall_mem_cons.mp h
    rw [List.filterMapM_cons]
    refine helement.bind fun found hfound => ?_
    cases found with
    | none => exact ih hothers
    | some b =>
      exact (ih hothers).bind fun later hlater => List.forall_mem_cons.mpr ⟨hfound b rfl, hlater⟩

/-- Whether some element is of a kind, if nothing is known of the answers. -/
theorem yields_anyM {f : α → Except ε Bool} {elements : List α}
    (h : ∀ element ∈ elements, Yields (fun _ => True) bad (f element)) :
    Yields (fun _ => True) bad (elements.anyM f) := by
  induction elements with
  | nil => trivial
  | cons element others ih =>
    obtain ⟨helement, hothers⟩ := List.forall_mem_cons.mp h
    rw [List.anyM_cons]
    refine helement.bind fun answer _ => ?_
    cases answer with
    | false => exact ih hothers
    | true => trivial

theorem yields_allM {f : α → Except ε Bool} {elements : List α}
    (h : ∀ element ∈ elements, Yields (fun _ => True) bad (f element)) :
    Yields (fun _ => True) bad (elements.allM f) := by
  induction elements with
  | nil => trivial
  | cons element others ih =>
    obtain ⟨helement, hothers⟩ := List.forall_mem_cons.mp h
    rw [List.allM_cons]
    refine helement.bind fun answer _ => ?_
    cases answer with
    | false => trivial
    | true => exact ih hothers

end Yields

/-! ## Groups -/

/-- The group that closes first has no parentheses inside. -/
theorem isFlat_of_mem_inner {items : List Item} {group : Group}
    (h : innermostGroup? items = some group) : ∀ item ∈ group.inner, item.IsFlat := by
  unfold innermostGroup? at h
  simp only at h
  split at h
  · cases h
    intro item hitem
    have hinner := List.mem_reverse.mp hitem
    have hfront := List.mem_reverse.mp (List.takeWhile_subset _ hinner)
    have hleft := List.mem_takeWhile_imp hinner
    have hright := List.mem_takeWhile_imp hfront
    exact ⟨by simpa using hleft, by simpa using hright⟩
  · cases h

/-- Whether reduction stops at a parenthesis without a partner. -/
def Unpaired (items : List Item) : Prop :=
  if items.any Item.isLeftParen then innermostGroup? items = none
  else items.any Item.isRightParen = true

/-- Reduction keeps what the reduction of one group keeps. -/
theorem yields_reduce_of_groups {inv : List Item → Prop} {good : Value → Prop}
    {bad : Cause → Prop}
    (hgroup : ∀ group : Group, (∀ item ∈ group.inner, item.IsFlat) → inv group.items →
      inv group.inner ∧ ∀ v, good v → inv (group.replace v))
    (hflat : ∀ items, (∀ item ∈ items, item.IsFlat) → inv items →
      Yields good bad (evaluateFlat items))
    (hunpaired : ∀ items, Unpaired items → inv items → bad .unbalancedParens)
    {items : List Item} (h : inv items) : Yields good bad (reduce items) := by
  fun_induction reduce items with
  | case1 items _ group hfound ihinner ihreplace =>
    rw [← items_of_innermostGroup? hfound] at h
    obtain ⟨hinner, hreplace⟩ := hgroup group (isFlat_of_mem_inner hfound) h
    exact (ihinner hinner).bind fun v hv => ihreplace v (hreplace v hv)
  | case2 items hleft hnone => exact hunpaired items (by rw [Unpaired, if_pos hleft]; exact hnone) h
  | case3 items hleft hright =>
    exact hunpaired items (by rw [Unpaired, if_neg hleft]; exact hright) h
  | case4 items hleft hright =>
    refine hflat items (fun item hitem => ⟨?_, ?_⟩) h
    · exact Bool.eq_false_iff.mpr fun hparen => hleft (List.any_eq_true.mpr ⟨item, hitem, hparen⟩)
    · exact Bool.eq_false_iff.mpr fun hparen => hright (List.any_eq_true.mpr ⟨item, hitem, hparen⟩)

/-! ## Kinds of items -/

/-- A kind of items such that operators between values of the kind give values of the
kind, with the causes for which evaluation may fail. -/
structure Preserved (kind : Item → Prop) (bad : Cause → Prop) : Prop where
  apply : ∀ (op : Operator) (left right : Value), kind (.value left) → kind (.value right) →
    Yields (fun v => kind (.value v)) bad (op.apply left right)
  missingOperand : ∀ item : Item, kind item → bad (.missingOperand item)
  missingOperator : ∀ item : Item, kind item → bad (.missingOperator item)
  missingValue : bad .missingValue

namespace Preserved

variable {kind : Item → Prop} {bad : Cause → Prop}

theorem productsFrom (h : Preserved kind bad) {current : Item} {items : List Item}
    (hcurrent : kind current) (hitems : ∀ item ∈ items, kind item) :
    Yields (fun found => ∀ item ∈ found, kind item) bad (productsFrom current items) := by
  fun_induction KoreanScript.productsFrom current items with
  | case1 current => exact List.forall_mem_singleton.mpr hcurrent
  | case2 op _ left right later ih =>
    obtain ⟨-, hright, hlater⟩ :
        kind (.operator op) ∧ kind (.value right) ∧ ∀ item ∈ later, kind item := by
      simpa using hitems
    exact (h.apply op left right hcurrent hright).bind fun result hresult =>
      ih result hresult hlater
  | case3 current op => exact h.missingOperand _ (hitems _ List.mem_cons_self)
  | case4 current op later _ ih =>
    obtain ⟨hop, hlater⟩ := List.forall_mem_cons.mp hitems
    exact (ih hop hlater).bind fun found hfound => List.forall_mem_cons.mpr ⟨hcurrent, hfound⟩
  | case5 current item later _ ih =>
    obtain ⟨hitem, hlater⟩ := List.forall_mem_cons.mp hitems
    exact (ih hitem hlater).bind fun found hfound => List.forall_mem_cons.mpr ⟨hcurrent, hfound⟩

theorem products (h : Preserved kind bad) {items : List Item} (hitems : ∀ item ∈ items, kind item) :
    Yields (fun found => ∀ item ∈ found, kind item) bad (products items) := by
  unfold KoreanScript.products
  split
  · exact hitems
  · next op rest =>
    obtain ⟨hop, hrest⟩ := List.forall_mem_cons.mp hitems
    split
    · exact h.missingOperand _ hop
    · exact h.productsFrom hop hrest
  · next item rest _ =>
    obtain ⟨hitem, hrest⟩ := List.forall_mem_cons.mp hitems
    exact h.productsFrom hitem hrest

theorem sumFrom (h : Preserved kind bad) {total : Value} {items : List Item}
    (htotal : kind (.value total)) (hitems : ∀ item ∈ items, kind item) :
    Yields (fun v => kind (.value v)) bad (sumFrom total items) := by
  fun_induction KoreanScript.sumFrom total items with
  | case1 total => exact htotal
  | case2 total op _ operand later ih =>
    obtain ⟨-, hoperand, hlater⟩ :
        kind (.operator op) ∧ kind (.value operand) ∧ ∀ item ∈ later, kind item := by
      simpa using hitems
    exact (h.apply op total operand htotal hoperand).bind fun result hresult =>
      ih result hresult hlater
  | case3 total op => exact h.missingOperand _ (hitems _ List.mem_cons_self)
  | case4 total op => exact h.missingOperator _ (hitems _ List.mem_cons_self)
  | case5 total item => exact h.missingOperator item (hitems item List.mem_cons_self)

theorem sum (h : Preserved kind bad) {items : List Item} (hitems : ∀ item ∈ items, kind item) :
    Yields (fun v => kind (.value v)) bad (sum items) := by
  unfold KoreanScript.sum
  split
  · exact h.missingValue
  · next first rest =>
    obtain ⟨hfirst, hrest⟩ := List.forall_mem_cons.mp hitems
    exact h.sumFrom hfirst hrest
  · exact h.missingOperand _ (hitems _ List.mem_cons_self)

/-- The two passes keep to a kind of items. -/
theorem evaluateFlat (h : Preserved kind bad) {items : List Item}
    (hitems : ∀ item ∈ items, kind item) :
    Yields (fun v => kind (.value v)) bad (evaluateFlat items) :=
  (h.products hitems).bind fun _ hfound => h.sum hfound

/-- **Reduction keeps to a kind of items** that operators keep to. -/
theorem reduce (h : Preserved kind bad) (hunpaired : bad .unbalancedParens) {items : List Item}
    (hitems : ∀ item ∈ items, kind item) :
    Yields (fun v => kind (.value v)) bad (reduce items) := by
  refine @yields_reduce_of_groups (fun items => ∀ item ∈ items, kind item) _ bad
    (fun group _ hall => ?_) (fun _ _ hall => h.evaluateFlat hall) (fun _ _ _ => hunpaired)
    items hitems
  simp only [Group.items, List.forall_mem_append, List.forall_mem_cons] at hall
  obtain ⟨⟨hbefore, -, hinner⟩, -, hafter⟩ := hall
  refine ⟨hinner, fun v hv => ?_⟩
  exact List.forall_mem_append.mpr ⟨hbefore, List.forall_mem_cons.mpr ⟨hv, hafter⟩⟩

end Preserved

end KoreanScript
