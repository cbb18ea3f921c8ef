import KoreanScript.Proofs.Outcomes
import KoreanScript.Proofs.Replacement

/-!
# What the faults of an expression mean

The passes of evaluation run one after the other over lists that shrink, so that a
fault is found in some intermediate list.  What it says is nevertheless a fact on the
tokens of the expression.  A name without a value is reported before anything else, and
it is the first one.  Otherwise parentheses are reported only if they are not balanced,
types only if there is a text among the operands, and the form only if the tokens are
no chain of operands with operators between them, groups in parentheses being operands.

The form of a list depends on the parts that its items play, and not on their values.
Two readers go over the parts from left to right: the one counts the groups that are
open, the other knows whether an operand is due.  Neither is disturbed when a group is
replaced by its value.
-/

set_option autoImplicit false

namespace KoreanScript

/-! ## Parts -/

/-- What a token or an item is in the form of an expression. -/
inductive Part where
  | operand
  | operator
  | opening
  | closing
  deriving DecidableEq

/-- The part of a token. -/
def Token.part? : Token → Option Part
  | .number _ | .text _ | .name _ => some .operand
  | .operator _ => some .operator
  | .leftParen => some .opening
  | .rightParen => some .closing
  | .unclosedText | .blank => none

/-- The part of an item. -/
def Item.part : Item → Part
  | .value _ => .operand
  | .operator _ => .operator
  | .leftParen => .opening
  | .rightParen => .closing

/-- The form of some tokens. -/
def parts (tokens : List Token) : List Part :=
  tokens.filterMap Token.part?

/-- What replaces a token has its part. -/
theorem Replaces.part_eq {store : Store} {token : Token} {item : Item}
    (h : Replaces store token item) : token.part? = some item.part := by
  cases h <;> rfl

theorem parts_eq {store : Store} {tokens : List Token} {items : List Item}
    (h : List.Forall₂ (Replaces store) tokens items) : parts tokens = items.map Item.part := by
  induction h with
  | nil => rfl
  | cons hreplaces _ ih =>
    rw [parts, List.filterMap_cons_some hreplaces.part_eq, List.map_cons]
    exact congrArg _ ih

/-! ## Balanced parentheses -/

/-- Every parenthesis has its partner. -/
structure Balanced (parts : List Part) : Prop where
  /-- Up to no place more groups are closed than opened. -/
  neverNegative : ∀ front, front <+: parts → front.count .closing ≤ front.count .opening
  /-- All that are opened are closed. -/
  even : parts.count .opening = parts.count .closing

/-- How many groups are open after a part, when `depth` are before it. -/
def Part.climb : Nat → Part → Option Nat
  | depth, .opening => some (depth + 1)
  | depth + 1, .closing => some depth
  | 0, .closing => none
  | depth, .operand | depth, .operator => some depth

/-- How many groups are open after some parts, unless one closes where none is open. -/
def groupsOpen (depth : Nat) (parts : List Part) : Option Nat :=
  parts.foldlM Part.climb depth

@[simp] theorem groupsOpen_nil (depth : Nat) : groupsOpen depth [] = some depth := rfl

@[simp] theorem groupsOpen_cons (depth : Nat) (part : Part) (rest : List Part) :
    groupsOpen depth (part :: rest) = (part.climb depth).bind (groupsOpen · rest) := rfl

@[simp] theorem groupsOpen_append (depth : Nat) (first second : List Part) :
    groupsOpen depth (first ++ second) = (groupsOpen depth first).bind (groupsOpen · second) :=
  List.foldlM_append

theorem forall_front_cons {p : List Part → Prop} {part : Part} {rest : List Part} :
    (∀ front, front <+: part :: rest → p front) ↔
      p [] ∧ ∀ front, front <+: rest → p (part :: front) := by
  simp only [List.prefix_cons_iff]
  constructor
  · intro h
    exact ⟨h [] (.inl rfl), fun front hfront => h _ (.inr ⟨front, rfl, hfront⟩)⟩
  · rintro ⟨hnil, hcons⟩ front (rfl | ⟨later, rfl, hlater⟩)
    · exact hnil
    · exact hcons later hlater

/-- The count of open groups never stops just if no more groups are closed than opened. -/
theorem groupsOpen_eq_some_iff {depth final : Nat} {parts : List Part} :
    groupsOpen depth parts = some final ↔
      (∀ front, front <+: parts → front.count .closing ≤ depth + front.count .opening) ∧
        depth + parts.count .opening = final + parts.count .closing := by
  induction parts generalizing depth with
  | nil => simp
  | cons part rest ih =>
    rw [groupsOpen_cons, forall_front_cons]
    cases part with
    | operand | operator => simp [Part.climb, ih]
    | opening => simp [Part.climb, ih, Nat.add_assoc, Nat.add_comm 1]
    | closing =>
      cases depth with
      | zero =>
        constructor
        · nofun
        · rintro ⟨⟨-, hnever⟩, -⟩
          exact absurd (hnever [] List.nil_prefix) (by simp)
      | succ depth =>
        have hstep (closed opened : Nat) :
            closed + 1 ≤ depth + 1 + opened ↔ closed ≤ depth + opened := by omega
        have heven (closed opened : Nat) :
            depth + 1 + opened = final + (closed + 1) ↔ depth + opened = final + closed := by omega
        simp [Part.climb, ih, hstep, heven]

/-- Parentheses are balanced just if, counted from left to right, none closes where none
is open, and none is open in the end. -/
theorem balanced_iff {parts : List Part} : Balanced parts ↔ groupsOpen 0 parts = some 0 := by
  rw [groupsOpen_eq_some_iff]
  simp only [Nat.zero_add]
  exact ⟨fun h => ⟨h.neverNegative, h.even⟩, fun h => ⟨h.1, h.2⟩⟩

/-- Items without parentheses leave open what is open. -/
theorem groupsOpen_of_isFlat {items : List Item} (h : ∀ item ∈ items, item.IsFlat) (depth : Nat) :
    groupsOpen depth (items.map Item.part) = some depth := by
  induction items with
  | nil => rfl
  | cons item rest ih =>
    obtain ⟨hitem, hrest⟩ := List.forall_mem_cons.mp h
    rw [List.map_cons, groupsOpen_cons]
    cases item with
    | value | operator => exact ih hrest
    | leftParen => cases hitem.1
    | rightParen => cases hitem.2

/-- The items of a derivation leave open what is open. -/
theorem groupsOpen_items {tier : Tier} (d : Derivation tier) (depth : Nat) :
    groupsOpen depth (d.items.map Item.part) = some depth := by
  induction d generalizing depth with
  | value v => rfl
  | group inner ih => simp [Derivation.items, Item.part, Part.climb, ih]
  | single inner ih => exact ih depth
  | term inner ih => exact ih depth
  | product left op _ right ihleft ihright | sum left op _ right ihleft ihright =>
    simp [Derivation.items, Item.part, Part.climb, ihleft, ihright]

/-- **What has a value is balanced.** -/
theorem balanced_of_reduce {items : List Item} {v : Value} (h : reduce items = .ok v) :
    Balanced (items.map Item.part) := by
  obtain ⟨d, rfl, -⟩ := exists_derivation_of_reduce h
  exact balanced_iff.mpr (groupsOpen_items d 0)

namespace Item

variable {item : Item}

theorem isLeftParen_iff : item.isLeftParen = true ↔ item = .leftParen := by
  cases item <;> simp [isLeftParen]

theorem isRightParen_iff : item.isRightParen = true ↔ item = .rightParen := by
  cases item <;> simp [isRightParen]

theorem part_eq_opening_iff : item.part = .opening ↔ item = .leftParen := by
  cases item <;> simp [part]

theorem part_eq_closing_iff : item.part = .closing ↔ item = .rightParen := by
  cases item <;> simp [part]

end Item

/-- Reduction stops at a parenthesis that closes where none has been opened, or when
those that are open are never closed. -/
theorem Unpaired.cases {items : List Item} (h : Unpaired items) :
    (∃ front after, items = front ++ .rightParen :: after ∧ .leftParen ∉ front) ∨
      .leftParen ∈ items ∧ .rightParen ∉ items := by
  simp only [Unpaired, List.any_eq_true, Item.isLeftParen_iff, Item.isRightParen_iff,
    exists_eq_right] at h
  by_cases hright : .rightParen ∈ items
  · obtain ⟨front, after, rfl, hfront⟩ := List.eq_append_cons_of_mem hright
    refine .inl ⟨front, after, rfl, fun hopens => ?_⟩
    rw [if_pos (List.mem_append_left _ hopens), innermostGroup?_of_not_mem hfront] at h
    split at h
    · next hdrop =>
      exact absurd (List.dropWhile_eq_nil_iff.mp hdrop _ (List.mem_reverse.mpr hopens))
        Bool.false_ne_true
    · cases h
  · split at h
    · next hleft => exact .inr ⟨hleft, hright⟩
    · exact absurd h hright

/-- In a balanced list reduction comes to no parenthesis without a partner. -/
theorem not_unpaired_of_balanced {items : List Item} (h : Balanced (items.map Item.part)) :
    ¬Unpaired items := by
  intro hunpaired
  rcases hunpaired.cases with ⟨front, after, rfl, hfront⟩ | ⟨hleft, hright⟩
  · have hnever := h.neverNegative ((front ++ [Item.rightParen]).map Item.part) (by simp)
    have hnone : (front.map Item.part).count .opening = 0 := by
      simpa [List.count_eq_zero, Item.part_eq_opening_iff] using hfront
    simp [Item.part, hnone] at hnever
  · have hsome : 0 < (items.map Item.part).count .opening := by
      simpa [List.count_pos_iff, Item.part_eq_opening_iff] using hleft
    have hnone : (items.map Item.part).count .closing = 0 := by
      simpa [List.count_eq_zero, Item.part_eq_closing_iff] using hright
    have heven := h.even
    omega

/-- The two passes never blame parentheses. -/
theorem preserved_passes : Preserved (fun _ => True) (· ≠ .unbalancedParens) where
  apply := by
    intro op left right _ _
    cases op <;> cases left <;> cases right <;>
      first | exact trivial | exact Cause.noConfusion
  missingOperand := fun _ _ => Cause.noConfusion
  missingOperator := fun _ _ => Cause.noConfusion
  missingValue := Cause.noConfusion

theorem map_part_items (group : Group) :
    group.items.map Item.part =
      group.before.map Item.part ++
        .opening :: (group.inner.map Item.part ++ .closing :: group.after.map Item.part) := by
  simp [Group.items, Item.part]

theorem map_part_replace (group : Group) (v : Value) :
    (group.replace v).map Item.part =
      group.before.map Item.part ++ .operand :: group.after.map Item.part := by
  simp [Group.replace, Item.part]

/-- **Parentheses are blamed only if they are not balanced.** -/
theorem reduce_ne_unbalancedParens {items : List Item} (h : Balanced (items.map Item.part)) :
    reduce items ≠ .error .unbalancedParens := by
  have hyields : Yields (fun _ => True) (· ≠ .unbalancedParens) (reduce items) := by
    refine @yields_reduce_of_groups (fun items => Balanced (items.map Item.part)) _ _ ?_ ?_ ?_
      items h
    · intro group hinner hbalanced
      simp only [balanced_iff, map_part_items, map_part_replace] at hbalanced ⊢
      refine ⟨groupsOpen_of_isFlat hinner 0, fun v _ => ?_⟩
      simpa [Part.climb, groupsOpen_of_isFlat hinner] using hbalanced
    · exact fun _ _ _ => preserved_passes.evaluateFlat fun _ _ => trivial
    · intro items hunpaired hbalanced
      exact absurd hunpaired (not_unpaired_of_balanced hbalanced)
  exact fun herror => hyields.error herror rfl

/-! ## The grammar of forms -/

/-- What the grammar of forms speaks of. -/
inductive Phrase where
  | operand
  | chain

/-- The forms of operands, and of chains of operands with operators between them. -/
inductive Grammatical : Phrase → List Part → Prop where
  /-- A literal or a name is an operand. -/
  | value : Grammatical .operand [.operand]
  /-- A chain in parentheses is an operand. -/
  | group {inner : List Part} (chain : Grammatical .chain inner) :
      Grammatical .operand (.opening :: inner ++ [.closing])
  /-- An operand is a chain. -/
  | single {form : List Part} (operand : Grammatical .operand form) : Grammatical .chain form
  /-- A chain, an operator and an operand. -/
  | next {front last : List Part} (chain : Grammatical .chain front)
      (operand : Grammatical .operand last) : Grammatical .chain (front ++ .operator :: last)

/-- Whether an operand is due after a part, if it is known before; there is no answer
after a part that is out of place. -/
def Part.follow : Bool → Part → Option Bool
  | true, .operand => some false
  | true, .opening => some true
  | false, .operator => some true
  | false, .closing => some false
  | _, _ => none

/-- Whether an operand is due after some parts, unless one of them is out of place. -/
def operandDue (due : Bool) (parts : List Part) : Option Bool :=
  parts.foldlM Part.follow due

@[simp] theorem operandDue_nil (due : Bool) : operandDue due [] = some due := rfl

@[simp] theorem operandDue_cons (due : Bool) (part : Part) (rest : List Part) :
    operandDue due (part :: rest) = (part.follow due).bind (operandDue · rest) := rfl

@[simp] theorem operandDue_append (due : Bool) (first second : List Part) :
    operandDue due (first ++ second) = (operandDue due first).bind (operandDue · second) :=
  List.foldlM_append

/-- In a grammatical list no part is out of place, and no operand is due in the end. -/
theorem Grammatical.operandDue {phrase : Phrase} {form : List Part} (h : Grammatical phrase form) :
    operandDue true form = some false := by
  induction h with
  | value => rfl
  | group _ ih => simp [Part.follow, ih]
  | single _ ih => exact ih
  | next _ _ ihchain ihoperand => simp [Part.follow, ihchain, ihoperand]

/-- Where a group stands an operand is due, and none is after it; and the same holds
inside. -/
theorem operandDue_group {due : Bool} {inner after : List Part} {final : Bool}
    (h : operandDue due (.opening :: (inner ++ .closing :: after)) = some final) :
    due = true ∧ operandDue true inner = some false ∧ operandDue false after = some final := by
  cases due with
  | false => cases h
  | true =>
    rw [operandDue_cons, Part.follow, Option.bind_some, operandDue_append] at h
    obtain ⟨last, hinner, hrest⟩ := Option.bind_eq_some_iff.mp h
    cases last with
    | true => cases hrest
    | false => exact ⟨rfl, hinner, hrest⟩

/-! ## The form is blamed -/

/-- What follows a value in a list without parentheses: operators of some kind, each with
an operand. -/
inductive Operations (kind : Operator → Prop) : List Item → Prop where
  | nil : Operations kind []
  | cons {op : Operator} (hop : kind op) (operand : Value) {later : List Item}
      (h : Operations kind later) : Operations kind (.operator op :: .value operand :: later)

theorem operations_of_operandDue :
    ∀ {items : List Item}, (∀ item ∈ items, item.IsFlat) →
      operandDue false (items.map Item.part) = some false → Operations (fun _ => True) items
  | [], _, _ => .nil
  | .operator op :: .value operand :: later, hflat, hdue =>
    have hlater : ∀ item ∈ later, item.IsFlat := fun item hitem => hflat item (by simp [hitem])
    .cons trivial operand (operations_of_operandDue hlater hdue)
  | .value _ :: _, _, hdue => by cases hdue
  | .leftParen :: _, _, hdue => by cases hdue
  | .rightParen :: _, hflat, _ => nomatch (hflat .rightParen List.mem_cons_self).2
  | [.operator _], _, hdue => by cases hdue
  | .operator _ :: .operator _ :: _, _, hdue => by cases hdue
  | .operator _ :: .leftParen :: _, hflat, _ => nomatch (hflat .leftParen (by simp)).1
  | .operator _ :: .rightParen :: _, hflat, _ => nomatch (hflat .rightParen (by simp)).2

/-- A list without parentheses in which no part is out of place is a value with
operations. -/
theorem exists_operations {items : List Item} (hflat : ∀ item ∈ items, item.IsFlat)
    (hdue : operandDue true (items.map Item.part) = some false) :
    ∃ first later, items = .value first :: later ∧ Operations (fun _ => True) later := by
  cases items with
  | nil => cases hdue
  | cons item later =>
    obtain ⟨hitem, hlater⟩ := List.forall_mem_cons.mp hflat
    cases item with
    | value first => exact ⟨first, later, rfl, operations_of_operandDue hlater hdue⟩
    | operator => cases hdue
    | leftParen => cases hitem.1
    | rightParen => cases hdue

/-- A cause that does not blame the form. -/
def Cause.SparesForm (cause : Cause) : Prop :=
  ∀ details, cause ≠ .malformedExpression details

theorem Operator.apply_sparesForm (op : Operator) (left right : Value) :
    Yields (fun _ => True) Cause.SparesForm (op.apply left right) := by
  cases op <;> cases left <;> cases right <;>
    first | exact trivial | exact fun _ => Cause.noConfusion

namespace Operations

/-- The first pass leaves operations of the second pass. -/
theorem yields_productsFrom {kind : Operator → Prop} {items : List Item} (h : Operations kind items)
    (current : Value) :
    Yields (fun out => ∃ first later, out = .value first :: later ∧
        Operations (fun op => op.isAdditive = true) later)
      Cause.SparesForm (productsFrom (.value current) items) := by
  induction h generalizing current with
  | nil => exact ⟨current, [], rfl, .nil⟩
  | @cons op _ operand later _ ih =>
    cases hbinds : op.bindsTighter with
    | true =>
      rw [productsFrom_of_bindsTighter hbinds]
      exact (op.apply_sparesForm current operand).bind fun result _ => ih result
    | false =>
      have hadditive : op.isAdditive = true := by
        rw [op.isAdditive_eq_not, hbinds]
        rfl
      rw [productsFrom_of_isAdditive hadditive]
      refine (ih operand).map ?_
      rintro _ ⟨first, rest, rfl, hrest⟩
      exact ⟨current, .operator op :: .value first :: rest, rfl, .cons hadditive first hrest⟩

/-- The second pass works off its operations. -/
theorem yields_sumFrom {items : List Item} (h : Operations (fun op => op.isAdditive = true) items)
    (total : Value) : Yields (fun _ => True) Cause.SparesForm (sumFrom total items) := by
  induction h generalizing total with
  | nil => exact trivial
  | @cons op hadditive operand later _ ih =>
    rw [sumFrom_of_isAdditive hadditive]
    exact (op.apply_sparesForm total operand).bind fun result _ => ih result

end Operations

/-- A list without parentheses in which no part is out of place is not blamed for its
form. -/
theorem evaluateFlat_sparesForm {items : List Item} (hflat : ∀ item ∈ items, item.IsFlat)
    (hdue : operandDue true (items.map Item.part) = some false) :
    Yields (fun _ => True) Cause.SparesForm (evaluateFlat items) := by
  obtain ⟨first, later, rfl, hlater⟩ := exists_operations hflat hdue
  refine (hlater.yields_productsFrom first).bind ?_
  rintro _ ⟨total, rest, rfl, hrest⟩
  exact hrest.yields_sumFrom total

/-- **The form is blamed only if it is not grammatical.** -/
theorem reduce_sparesForm {items : List Item} (h : Grammatical .chain (items.map Item.part)) :
    Yields (fun _ => True) Cause.SparesForm (reduce items) := by
  refine @yields_reduce_of_groups (fun items => operandDue true (items.map Item.part) = some false)
    _ _ ?_ ?_ ?_ items h.operandDue
  · intro group _ hdue
    rw [map_part_items, operandDue_append] at hdue
    obtain ⟨due, hbefore, hgroup⟩ := Option.bind_eq_some_iff.mp hdue
    obtain ⟨rfl, hinner, hafter⟩ := operandDue_group hgroup
    refine ⟨hinner, fun v _ => ?_⟩
    rw [map_part_replace, operandDue_append, hbefore]
    exact hafter
  · intro items hflat hdue
    exact evaluateFlat_sparesForm hflat hdue
  · exact fun _ _ _ _ => Cause.noConfusion

/-! ## Types are blamed -/

/-- Whether an item is no text. -/
def Item.NoText (item : Item) : Prop :=
  ∀ content, item ≠ .value (.text content)

/-- Without texts no type is blamed. -/
theorem preserved_noText :
    Preserved Item.NoText fun cause => ∀ details, cause ≠ .typeMismatch details where
  apply := by
    intro op left right hleft hright
    cases left with
    | text content => exact absurd rfl (hleft content)
    | number a =>
      cases right with
      | text content => exact absurd rfl (hright content)
      | number b => cases op <;> exact fun _ => nofun
  missingOperand := fun _ _ _ => Cause.noConfusion
  missingOperator := fun _ _ _ => Cause.noConfusion
  missingValue := fun _ => Cause.noConfusion

/-! ## Grammatical lists over numbers -/

/-- The tier of a phrase. -/
def Phrase.tier : Phrase → Tier
  | .operand => .factor
  | .chain => .sum

/-- A sum goes on with an operator and a factor; one that binds tighter goes to its last
product. -/
theorem Derivation.exists_next (s : Derivation .sum) (op : Operator) (factor : Derivation .factor) :
    ∃ larger : Derivation .sum, larger.items = s.items ++ .operator op :: factor.items := by
  by_cases tight : op = .times ∨ op = .divide
  · cases s with
    | term p => exact ⟨.term (.product p op tight factor), rfl⟩
    | sum left other loose p =>
      exact ⟨.sum left other loose (.product p op tight factor), by simp [items]⟩
  · have loose : op = .plus ∨ op = .minus := by
      cases op <;> simp at tight ⊢
    exact ⟨.sum s op loose (.single factor), rfl⟩

/-- A grammatical list has a derivation. -/
theorem Grammatical.exists_derivation {phrase : Phrase} {form : List Part}
    (h : Grammatical phrase form) {items : List Item} (hform : items.map Item.part = form) :
    ∃ d : Derivation phrase.tier, d.items = items := by
  induction h generalizing items with
  | value =>
    obtain ⟨item, rfl, hitem⟩ := List.map_eq_singleton_iff.mp hform
    cases item with
    | value v => exact ⟨.value v, rfl⟩
    | _ => cases hitem
  | group _ ih =>
    obtain ⟨front, last, rfl, hfront, hlast⟩ := List.map_eq_append_iff.mp hform
    obtain ⟨opening, inner, rfl, hopening, hinner⟩ := List.map_eq_cons_iff.mp hfront
    obtain ⟨closing, rfl, hclosing⟩ := List.map_eq_singleton_iff.mp hlast
    obtain rfl := Item.part_eq_opening_iff.mp hopening
    obtain rfl := Item.part_eq_closing_iff.mp hclosing
    obtain ⟨d, rfl⟩ := ih hinner
    exact ⟨.group d, rfl⟩
  | single _ ih =>
    obtain ⟨d, rfl⟩ := ih hform
    exact ⟨.term (.single d), rfl⟩
  | next _ _ ihchain ihoperand =>
    obtain ⟨front, rest, rfl, hfront, hrest⟩ := List.map_eq_append_iff.mp hform
    obtain ⟨item, last, rfl, hitem, hlast⟩ := List.map_eq_cons_iff.mp hrest
    obtain ⟨s, rfl⟩ := ihchain hfront
    obtain ⟨factor, rfl⟩ := ihoperand hlast
    cases item with
    | operator op => exact s.exists_next op factor
    | _ => cases hitem

theorem Operator.exists_value?_number (op : Operator) (a b : Float) :
    ∃ n, op.value? (.number a) (.number b) = some (.number n) := by
  cases op <;> exact ⟨_, rfl⟩

/-- A derivation over numbers has a number as its value. -/
theorem Derivation.exists_value?_number {tier : Tier} (d : Derivation tier)
    (h : ∀ item ∈ d.items, item.NoText) : ∃ n, d.value? = some (.number n) := by
  induction d with
  | value v =>
    cases v with
    | number n => exact ⟨n, rfl⟩
    | text content => exact absurd rfl (h _ List.mem_cons_self content)
  | group inner ih => exact ih fun item hitem => h item (by simp [items, hitem])
  | single inner ih => exact ih h
  | term inner ih => exact ih h
  | product left op _ right ihleft ihright | sum left op _ right ihleft ihright =>
    obtain ⟨a, ha⟩ := ihleft fun item hitem => h item (by simp [items, hitem])
    obtain ⟨b, hb⟩ := ihright fun item hitem => h item (by simp [items, hitem])
    obtain ⟨n, hn⟩ := op.exists_value?_number a b
    exact ⟨n, by simp [value?, ha, hb, hn]⟩

/-- **A grammatical list over numbers has a number as its value.** -/
theorem exists_reduce_eq_number {items : List Item}
    (hform : Grammatical .chain (items.map Item.part)) (hnumbers : ∀ item ∈ items, item.NoText) :
    ∃ n, reduce items = .ok (.number n) := by
  obtain ⟨d, rfl⟩ := hform.exists_derivation rfl
  obtain ⟨n, hn⟩ := Derivation.exists_value?_number d hnumbers
  exact ⟨n, reduce_eq_ok_iff.mpr ⟨d, rfl, hn⟩⟩

/-! ## Names without values -/

/-- Whether all names among some tokens have values. -/
def Store.Binds (store : Store) (tokens : List Token) : Prop :=
  ∀ name, .name name ∈ tokens → ∃ v, store.get? name = some v

/-- Whether a name is the first among some tokens that has no value. -/
def Store.Misses (store : Store) (tokens : List Token) (name : String) : Prop :=
  ∃ before after, tokens = before ++ .name name :: after ∧ store.get? name = none ∧
    store.Binds before

theorem Store.binds_cons_iff {store : Store} {token : Token} {rest : List Token} :
    store.Binds (token :: rest) ↔
      (∀ name, token = .name name → ∃ v, store.get? name = some v) ∧ store.Binds rest := by
  simp only [Binds, List.mem_cons, or_imp, forall_and, eq_comm]

/-- If not all names have values, there is a first one that has none. -/
theorem Store.exists_misses {store : Store} {tokens : List Token} (h : ¬store.Binds tokens) :
    ∃ name, store.Misses tokens name := by
  induction tokens with
  | nil => exact absurd (fun _ hmem => nomatch hmem) h
  | cons token rest ih =>
    by_cases hfirst : ∀ name, token = .name name → ∃ v, store.get? name = some v
    · have hrest : ¬store.Binds rest := fun hrest => h (binds_cons_iff.mpr ⟨hfirst, hrest⟩)
      obtain ⟨name, before, after, rfl, hnone, hbefore⟩ := ih hrest
      exact ⟨name, token :: before, after, rfl, hnone, binds_cons_iff.mpr ⟨hfirst, hbefore⟩⟩
    · obtain ⟨name, rfl, hname⟩ : ∃ name, token = .name name ∧ ¬∃ v, store.get? name = some v := by
        simpa using hfirst
      exact ⟨name, [], rest, rfl, Option.eq_none_iff_forall_ne_some.mpr (not_exists.mp hname),
        fun _ hmem => nomatch hmem⟩

section Tokens

variable {store : Store} {tokens : List Token}

/-- Tokens whose names have values can be resolved. -/
theorem exists_items_of_binds (hclosed : .unclosedText ∉ tokens) (h : store.Binds tokens) :
    ∃ items, tokens.filterMapM (Item.resolve store) = .ok items := by
  induction tokens with
  | nil => exact ⟨[], rfl⟩
  | cons token rest ih =>
    obtain ⟨hfirst, hrest⟩ := Store.binds_cons_iff.mp h
    obtain ⟨items, hitems⟩ := ih (fun hmem => hclosed (List.mem_cons_of_mem token hmem)) hrest
    rw [List.filterMapM_cons, hitems]
    cases token with
    | name name =>
      obtain ⟨v, hv⟩ := hfirst name rfl
      have hfound : Item.resolve store (.name name) = .ok (some (.value v)) :=
        resolve_eq_ok_iff.mpr (.name hv)
      rw [hfound]
      exact ⟨.value v :: items, rfl⟩
    | unclosedText => exact absurd List.mem_cons_self hclosed
    | _ => exact ⟨_, rfl⟩

/-- The first name without a value is the cause that tokens cannot be resolved. -/
theorem Store.Misses.evaluateTokens_eq {name : String} (hclosed : .unclosedText ∉ tokens)
    (h : store.Misses tokens name) :
    evaluateTokens store tokens = .error (.undefinedVariable name) := by
  obtain ⟨before, after, rfl, hnone, hbinds⟩ := h
  have hbefore : .unclosedText ∉ before := fun hmem => hclosed (List.mem_append_left _ hmem)
  obtain ⟨items, hitems⟩ := exists_items_of_binds hbefore hbinds
  rw [evaluateTokens, filterMapM_append, hitems, List.filterMapM_cons]
  simp [Item.resolve, Store.lookup, hnone, Except.map, bind, Except.bind]

/-- Reduction knows no names. -/
theorem preserved_anything :
    Preserved (fun _ => True) fun cause => ∀ name, cause ≠ .undefinedVariable name where
  apply := by
    intro op left right _ _
    cases op <;> cases left <;> cases right <;>
      first | exact trivial | exact fun _ => Cause.noConfusion
  missingOperand := fun _ _ _ => Cause.noConfusion
  missingOperator := fun _ _ _ => Cause.noConfusion
  missingValue := fun _ => Cause.noConfusion

/-- **A name without a value is reported before anything else**, the first one first. -/
theorem evaluateTokens_eq_undefinedVariable_iff {name : String} (hclosed : .unclosedText ∉ tokens) :
    evaluateTokens store tokens = .error (.undefinedVariable name) ↔ store.Misses tokens name := by
  constructor
  · intro h
    by_cases hbinds : store.Binds tokens
    · obtain ⟨items, hitems⟩ := exists_items_of_binds hclosed hbinds
      have hreduce : reduce items = .error (.undefinedVariable name) := by
        rwa [evaluateTokens, hitems] at h
      have hyields : Yields (fun _ => True) (fun cause => ∀ name, cause ≠ .undefinedVariable name)
          (reduce items) :=
        preserved_anything.reduce (fun _ => Cause.noConfusion) fun _ _ => trivial
      exact absurd rfl (hyields.error hreduce name)
    · obtain ⟨first, hfirst⟩ := Store.exists_misses hbinds
      have hname := Except.error.inj ((hfirst.evaluateTokens_eq hclosed).symm.trans h)
      exact Cause.undefinedVariable.inj hname ▸ hfirst
  · exact fun h => h.evaluateTokens_eq hclosed

end Tokens

/-! ## The causes of a fault -/

/-- Whether a token stands for a text: a literal, or a name whose value is one. -/
inductive Token.IsText (store : Store) : Token → Prop where
  | literal (content : String) : IsText store (.text content)
  | name {name content : String} (h : store.get? name = some (.text content)) :
      IsText store (.name name)

/-- If no token stands for a text, no item is one. -/
theorem noText_of_replaces {store : Store} {tokens : List Token} {items : List Item}
    (h : List.Forall₂ (Replaces store) tokens items)
    (hnone : ∀ token ∈ tokens, ¬token.IsText store) : ∀ item ∈ items, item.NoText := by
  induction h with
  | nil => exact List.forall_mem_nil _
  | cons hreplaces _ ih =>
    obtain ⟨hfirst, hrest⟩ := List.forall_mem_cons.mp hnone
    refine List.forall_mem_cons.mpr ⟨?_, ih hrest⟩
    rintro content rfl
    cases hreplaces with
    | text => exact hfirst (.literal content)
    | name hget => exact hfirst (.name hget)

/-- What bound tokens are replaced by has their form and their texts, and evaluation is
its reduction. -/
theorem exists_replaced {store : Store} {text : List Char} {tokens : List Token}
    (htokens : tokenize text = .ok tokens) (hbinds : store.Binds tokens) :
    ∃ items, evaluateTokens store tokens = reduce items ∧ items.map Item.part = parts tokens ∧
      ((∀ token ∈ tokens, ¬token.IsText store) → ∀ item ∈ items, item.NoText) := by
  have hclosed : .unclosedText ∉ tokens := fun hmem =>
    ne_unclosedText_of_mem_tokenize htokens hmem rfl
  have hkeep : ∀ token ∈ tokens, Item.resolve store token ≠ .ok none := fun token hmem =>
    resolve_ne_ok_none (ne_blank_of_mem_tokenize htokens hmem)
  obtain ⟨items, hitems⟩ := exists_items_of_binds hclosed hbinds
  have hreplaces : List.Forall₂ (Replaces store) tokens items := by
    simpa only [filterMapM_eq_ok_iff hkeep, resolve_eq_ok_iff] using hitems
  refine ⟨items, ?_, (parts_eq hreplaces).symm, noText_of_replaces hreplaces⟩
  rw [evaluateTokens, hitems]
  rfl

/-- **The faults of an expression mean what they say.**  A name without a value is
reported if there is one, whatever else is wrong, and it is the first one.  If there is
none, unbalanced parentheses are always a fault; they are reported only if they are
not balanced, types only if there is a text among the operands, and the form only if it
is not grammatical.  Hence a grammatical expression over numbers has a number as its value. -/
theorem evaluateTokens_faults {text : List Char} {tokens : List Token}
    (htokens : tokenize text = .ok tokens) (store : Store) (line : Nat) :
    (∀ name, locate line (evaluateTokens store tokens) = .error ⟨line, .undefinedVariable name⟩ ↔
        store.Misses tokens name) ∧
      ((∃ fault name, locate line (evaluateTokens store tokens) = .error fault ∧
          fault.cause = .undefinedVariable name) ↔
        ∃ name, .name name ∈ tokens ∧ store.get? name = none) ∧
      (store.Binds tokens →
        (¬Balanced (parts tokens) →
          ∃ fault, locate line (evaluateTokens store tokens) = .error fault) ∧
        (∀ fault, locate line (evaluateTokens store tokens) = .error fault →
          fault.line = line ∧
          (fault.cause = .unbalancedParens → ¬Balanced (parts tokens)) ∧
          (∀ details, fault.cause = .typeMismatch details →
            ∃ token ∈ tokens, token.IsText store) ∧
          ∀ details, fault.cause = .malformedExpression details →
            ¬Grammatical .chain (parts tokens)) ∧
        (Grammatical .chain (parts tokens) → (∀ token ∈ tokens, ¬token.IsText store) →
          ∃ n, locate line (evaluateTokens store tokens) = .ok (.number n))) := by
  have hclosed : .unclosedText ∉ tokens := fun hmem =>
    ne_unclosedText_of_mem_tokenize htokens hmem rfl
  have hfirst : ∀ name, evaluateTokens store tokens = .error (.undefinedVariable name) ↔
      store.Misses tokens name := fun _ => evaluateTokens_eq_undefinedVariable_iff hclosed
  refine ⟨fun name => ?_, ⟨?_, ?_⟩, fun hbinds => ?_⟩
  · simpa [locate_eq_error_iff] using hfirst name
  · rintro ⟨fault, name, herror, hcause⟩
    have hevaluate := (locate_eq_error_iff.mp herror).2
    rw [hcause, hfirst] at hevaluate
    obtain ⟨before, after, rfl, hnone, -⟩ := hevaluate
    exact ⟨name, by simp, hnone⟩
  · rintro ⟨name, hmem, hnone⟩
    have hbinds : ¬store.Binds tokens := by
      intro hbinds
      obtain ⟨v, hv⟩ := hbinds name hmem
      cases hnone.symm.trans hv
    obtain ⟨first, hmisses⟩ := Store.exists_misses hbinds
    exact ⟨⟨line, .undefinedVariable first⟩, first,
      locate_eq_error_iff.mpr ⟨rfl, hmisses.evaluateTokens_eq hclosed⟩, rfl⟩
  · obtain ⟨items, heq, hform, htexts⟩ := exists_replaced htokens hbinds
    rw [heq, ← hform]
    refine ⟨fun hunbalanced => ?_, fun fault herror => ?_, fun hgrammatical hnone => ?_⟩
    · cases hreduce : reduce items with
      | ok v => exact absurd (balanced_of_reduce hreduce) hunbalanced
      | error cause => exact ⟨⟨line, cause⟩, rfl⟩
    · obtain ⟨hline, hreduce⟩ := locate_eq_error_iff.mp herror
      refine ⟨hline, fun hcause hbalanced => ?_, fun details hcause => ?_,
        fun details hcause hform => ?_⟩
      · rw [hcause] at hreduce
        exact reduce_ne_unbalancedParens hbalanced hreduce
      · by_contra hnone
        have hnumbers := htexts fun token hmem htext => hnone ⟨token, hmem, htext⟩
        have hyields := preserved_noText.reduce (fun _ => Cause.noConfusion) hnumbers
        exact hyields.error hreduce details hcause
      · exact (reduce_sparesForm hform).error hreduce details hcause
    · obtain ⟨n, hn⟩ := exists_reduce_eq_number hgrammatical (htexts hnone)
      exact ⟨n, locate_eq_ok_iff.mpr hn⟩

/-- A name without a value before a parenthesis that closes nothing and another such name;
and a product with a group in it. -/
theorem evaluateTokens_faults_examples :
    let number (digit : Char) : Token := .number (Number.ofDigits [digit])
    let store := Store.empty.set "가" (.number (Number.ofDigits ['3']))
    let missing : List Token := [.name "가", .operator .times, .name "나", .rightParen, .name "다"]
    let product : List Token := [.leftParen, number '1', .operator .plus, .name "가", .rightParen,
      .operator .times, number '2']
    tokenize "가 * 나 ) 다".toList = .ok missing ∧ store.Misses missing "나" ∧
      locate 4 (evaluateTokens store missing) = .error ⟨4, .undefinedVariable "나"⟩ ∧
      tokenize "(1 + 가) * 2".toList = .ok product ∧ store.Binds product ∧
        Grammatical .chain (parts product) ∧ (∀ token ∈ product, ¬token.IsText store) ∧
          ∃ n, locate 4 (evaluateTokens store product) = .ok (.number n) := by
  intro number store missing product
  have hvalue : store.get? "가" = some (.number (Number.ofDigits ['3'])) := by
    simp [store, Store.get?_set]
  have hmissing : tokenize "가 * 나 ) 다".toList = .ok missing := by decide +kernel
  have hproduct : tokenize "(1 + 가) * 2".toList = .ok product := by decide +kernel
  have hmisses : store.Misses missing "나" := by
    refine ⟨[.name "가", .operator .times], _, rfl, by simp [store, Store.get?_set], ?_⟩
    intro name hname
    obtain rfl : name = "가" := by simpa using hname
    exact ⟨_, hvalue⟩
  have hbinds : store.Binds product := by
    intro name hname
    obtain rfl : name = "가" := by simpa [product, number] using hname
    exact ⟨_, hvalue⟩
  have hform : Grammatical .chain (parts product) :=
    .next (.single (.group (.next (.single .value) .value))) .value
  have hnone : ∀ token ∈ product, ¬token.IsText store := by
    intro token hmem htext
    cases htext with
    | literal => simp [product, number] at hmem
    | @name name content h =>
      obtain rfl : name = "가" := by simpa [product, number] using hmem
      cases hvalue.symm.trans h
  exact ⟨hmissing, hmisses, ((evaluateTokens_faults hmissing store 4).1 "나").mpr hmisses, hproduct,
    hbinds, hform, hnone,
    ((evaluateTokens_faults hproduct store 4).2.2 hbinds).2.2 hform hnone⟩

end KoreanScript
