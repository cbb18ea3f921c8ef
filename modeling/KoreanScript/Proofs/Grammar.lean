import Mathlib.Data.List.Forall2
import KoreanScript.Expression

/-!
# The grammar of expressions

Evaluation never parses: it reduces groups from the inside and works off what is
left in two passes.  The grammar that it amounts to has three tiers.  A factor is
a value or a group in parentheses around a sum; a product is a chain of factors
joined by `*` and `/`; a sum is a chain of products joined by `+` and `-`; both
chains lean to the left.  A derivation is a tree of this grammar.  It has the items
it stands for, and a value by recursion over the tree, if all its operators are
given operands that they are defined on.

The main theorem says that evaluation accepts exactly the derivable lists whose
derivation has a value, and yields that value.
-/

set_option autoImplicit false

namespace KoreanScript

/-! ## Derivations -/

/-- The three tiers of the grammar. -/
inductive Tier where
  | factor
  | product
  | sum

/-- Derivations of lists of items, by tier. -/
inductive Derivation : Tier → Type where
  /-- A value is a factor. -/
  | value (v : Value) : Derivation .factor
  /-- A sum in parentheses is a factor. -/
  | group (inner : Derivation .sum) : Derivation .factor
  /-- A factor is a product. -/
  | single (inner : Derivation .factor) : Derivation .product
  /-- A product, `*` or `/`, and a factor. -/
  | product (left : Derivation .product) (op : Operator) (tight : op = .times ∨ op = .divide)
      (right : Derivation .factor) : Derivation .product
  /-- A product is a sum. -/
  | term (inner : Derivation .product) : Derivation .sum
  /-- A sum, `+` or `-`, and a product. -/
  | sum (left : Derivation .sum) (op : Operator) (loose : op = .plus ∨ op = .minus)
      (right : Derivation .product) : Derivation .sum

/-- The value of an operator between two values, if it is defined there. -/
def Operator.value? : Operator → Value → Value → Option Value
  | .plus, .number a, .number b => some (.number (a + b))
  | .plus, a, b => some (.text (a.render ++ b.render))
  | .minus, .number a, .number b => some (.number (a - b))
  | .times, .number a, .number b => some (.number (a * b))
  | .divide, .number a, .number b => some (.number (a / b))
  | .minus, _, _ | .times, _, _ | .divide, _, _ => none

/-- Evaluation applies operators as the grammar means them. -/
theorem Operator.apply_eq_ok_iff {op : Operator} {a b result : Value} :
    op.apply a b = .ok result ↔ op.value? a b = some result := by
  cases op <;> cases a <;> cases b <;>
    simp [apply, value?, Value.add, onNumbers, Value.asNumber, bind, Except.bind, pure, Except.pure]

namespace Derivation

/-- The items that a derivation stands for. -/
def items {tier : Tier} : Derivation tier → List Item
  | value v => [.value v]
  | group inner => .leftParen :: inner.items ++ [.rightParen]
  | single inner => inner.items
  | product left op _ right => left.items ++ .operator op :: right.items
  | term inner => inner.items
  | sum left op _ right => left.items ++ .operator op :: right.items

/-- The value of a derivation. -/
def value? {tier : Tier} : Derivation tier → Option Value
  | value v => some v
  | group inner => inner.value?
  | single inner => inner.value?
  | product left op _ right => do op.value? (← left.value?) (← right.value?)
  | term inner => inner.value?
  | sum left op _ right => do op.value? (← left.value?) (← right.value?)

/-- A list with one marked place falls, around another marked item, on one side of it. -/
theorem marked_before_or_after (left : List Item) {right before after : List Item}
    {mark item : Item} (hne : mark ≠ item) (h : left ++ mark :: right = before ++ item :: after) :
    (∃ between, left = before ++ item :: between ∧ after = between ++ mark :: right) ∨
      ∃ between, before = left ++ mark :: between ∧ right = between ++ item :: after := by
  rcases List.append_eq_append_iff.mp h with ⟨rest, hbefore, hright⟩ | ⟨rest, hleft, hafter⟩
  · cases rest with
    | nil => exact absurd (List.cons.inj hright).1 hne
    | cons first between =>
      obtain ⟨rfl, hafter⟩ := List.cons.inj hright
      exact .inr ⟨between, hbefore, hafter⟩
  · cases rest with
    | nil => exact absurd (List.cons.inj hafter).1.symm hne
    | cons first between =>
      obtain ⟨rfl, hright⟩ := List.cons.inj hafter
      exact .inl ⟨between, hleft, hright⟩

/-- A group may stand wherever its value stands. -/
theorem exists_group_for_value {tier : Tier} (d : Derivation tier) {v : Value}
    (inner : Derivation .sum) (hinner : inner.value? = some v) {before after : List Item}
    (h : d.items = before ++ .value v :: after) :
    ∃ larger : Derivation tier,
      larger.items = before ++ .leftParen :: inner.items ++ .rightParen :: after ∧
        larger.value? = d.value? := by
  induction d generalizing before after with
  | value w =>
    cases before with
    | nil =>
      obtain ⟨hw, rfl⟩ := List.cons.inj h
      obtain rfl := Item.value.inj hw
      exact ⟨.group inner, rfl, hinner⟩
    | cons first rest => exact absurd (List.cons.inj h).2 (by simp)
  | group enclosed ih =>
    rw [items] at h
    -- the value stands after the opening parenthesis and before the closing one
    rcases marked_before_or_after _ (by simp) h with ⟨between, hfront, rfl⟩ | ⟨between, -, hnil⟩
    · rcases marked_before_or_after [] (by simp) hfront with
        ⟨_, hnil, -⟩ | ⟨before', rfl, henclosed⟩
      · simp at hnil
      · obtain ⟨larger, hitems, hvalue⟩ := ih henclosed
        exact ⟨.group larger, by simp [items, hitems], hvalue⟩
    · simp at hnil
  | single factor ih =>
    obtain ⟨larger, hitems, hvalue⟩ := ih h
    exact ⟨.single larger, hitems, hvalue⟩
  | term product ih =>
    obtain ⟨larger, hitems, hvalue⟩ := ih h
    exact ⟨.term larger, hitems, hvalue⟩
  | product left op tight right ihleft ihright =>
    rw [items] at h
    rcases marked_before_or_after _ (by simp) h with ⟨between, hleft, rfl⟩ | ⟨between, rfl, hright⟩
    · obtain ⟨larger, hitems, hvalue⟩ := ihleft hleft
      exact ⟨.product larger op tight right, by simp [items, hitems], by simp [value?, hvalue]⟩
    · obtain ⟨larger, hitems, hvalue⟩ := ihright hright
      exact ⟨.product left op tight larger, by simp [items, hitems], by simp [value?, hvalue]⟩
  | sum left op loose right ihleft ihright =>
    rw [items] at h
    rcases marked_before_or_after _ (by simp) h with ⟨between, hleft, rfl⟩ | ⟨between, rfl, hright⟩
    · obtain ⟨larger, hitems, hvalue⟩ := ihleft hleft
      exact ⟨.sum larger op loose right, by simp [items, hitems], by simp [value?, hvalue]⟩
    · obtain ⟨larger, hitems, hvalue⟩ := ihright hright
      exact ⟨.sum left op loose larger, by simp [items, hitems], by simp [value?, hvalue]⟩

end Derivation

/-! ## What the two passes accept -/

/-- What follows a product, and what the first pass makes of it. -/
inductive Continues : List Item → List Item → Prop where
  | nil : Continues [] []
  | cons {item : Item} {later more : List Item} (h : productsFrom item later = .ok more) :
      Continues (item :: later) more

/-- The first pass leaves an item alone that is no value. -/
theorem continues_of_productsFrom {item : Item} {rest out : List Item}
    (hitem : ∀ v, item ≠ .value v) (h : productsFrom item rest = .ok out) :
    ∃ more, out = item :: more ∧ Continues rest more := by
  unfold productsFrom at h
  split at h
  · exact ⟨[], (Except.ok.inj h).symm, .nil⟩
  · next op later =>
    split at h
    · split at h
      · exact absurd rfl (hitem _)
      · cases h
    · obtain ⟨more, hmore, hout⟩ := bind_eq_ok_iff.mp h
      exact ⟨more, (Except.ok.inj hout).symm, .cons hmore⟩
  · obtain ⟨more, hmore, hout⟩ := bind_eq_ok_iff.mp h
    exact ⟨more, (Except.ok.inj hout).symm, .cons hmore⟩

/-- Where the first pass stands on a value, it goes on to the end of a product. -/
theorem exists_product_of_productsFrom {p : Derivation .product} {a : Value}
    {rest out : List Item} (hvalue : p.value? = some a)
    (h : productsFrom (.value a) rest = .ok out) :
    ∃ (larger : Derivation .product) (b : Value) (rest' more : List Item),
      larger.items ++ rest' = p.items ++ rest ∧ rest'.length ≤ rest.length ∧
        larger.value? = some b ∧ out = .value b :: more ∧ Continues rest' more := by
  generalize hcurrent : Item.value a = current at h
  fun_induction productsFrom current rest generalizing p a out with
  | case1 current =>
    subst hcurrent
    exact ⟨p, a, [], [], rfl, Nat.le_refl _, hvalue, (Except.ok.inj h).symm, .nil⟩
  | case2 op tight left right later ih =>
    obtain rfl := Item.value.inj hcurrent
    obtain ⟨result, hresult, hlater⟩ := bind_eq_ok_iff.mp h
    have htimes := Operator.bindsTighter_iff.mp tight
    have hproduct : (Derivation.product p op htimes (.value right)).value? = some result := by
      simp [Derivation.value?, hvalue, Operator.apply_eq_ok_iff.mp hresult]
    obtain ⟨larger, b, rest', more, hitems, hlength, hb, hout, hcontinues⟩ :=
      ih result hproduct rfl hlater
    refine ⟨larger, b, rest', more, ?_, ?_, hb, hout, hcontinues⟩
    · simpa [Derivation.items] using hitems
    · simp only [List.length_cons]
      omega
  | case3 current op rest tight hoperand => cases h
  | case4 current op later loose ih =>
    subst hcurrent
    obtain ⟨more, hmore, hout⟩ := bind_eq_ok_iff.mp h
    exact ⟨p, a, .operator op :: later, more, rfl, Nat.le_refl _, hvalue,
      (Except.ok.inj hout).symm, .cons hmore⟩
  | case5 current item later hitem ih =>
    subst hcurrent
    obtain ⟨more, hmore, hout⟩ := bind_eq_ok_iff.mp h
    exact ⟨p, a, item :: later, more, rfl, Nat.le_refl _, hvalue, (Except.ok.inj hout).symm,
      .cons hmore⟩

/-- The first pass leaves something, and an operator in front only where one was. -/
theorem head_of_productsFrom {item : Item} {rest out : List Item}
    (h : productsFrom item rest = .ok out) :
    ∃ head more, out = head :: more ∧
      ∀ op, head = .operator op → item = .operator op ∧ Continues rest more := by
  by_cases hvalue : ∃ a, item = .value a
  · obtain ⟨a, rfl⟩ := hvalue
    obtain ⟨-, b, -, more, -, -, -, hout, -⟩ :=
      exists_product_of_productsFrom (p := .single (.value a)) rfl h
    exact ⟨.value b, more, hout, nofun⟩
  · obtain ⟨more, hout, hcontinues⟩ := continues_of_productsFrom (not_exists.mp hvalue) h
    exact ⟨item, more, hout, fun op hop => ⟨hop, hcontinues⟩⟩

/-- Where the first pass leaves a value, there is a product that has this value. -/
theorem exists_product_of_continues {rest more : List Item} {b : Value}
    (h : Continues rest (.value b :: more)) :
    ∃ (p : Derivation .product) (rest' : List Item), p.items ++ rest' = rest ∧
      rest'.length < rest.length ∧ p.value? = some b ∧ Continues rest' more := by
  rcases h with - | @⟨item, later, _, hmore⟩
  by_cases hvalue : ∃ a, item = .value a
  · obtain ⟨a, rfl⟩ := hvalue
    obtain ⟨p, b', rest', more', hitems, hlength, hp, hout, hcontinues⟩ :=
      exists_product_of_productsFrom (p := .single (.value a)) rfl hmore
    obtain ⟨hb, rfl⟩ := List.cons.inj hout
    obtain rfl := Item.value.inj hb
    exact ⟨p, rest', hitems, Nat.lt_succ_of_le hlength, hp, hcontinues⟩
  · obtain ⟨_, hout, -⟩ := continues_of_productsFrom (not_exists.mp hvalue) hmore
    exact absurd ⟨b, (List.cons.inj hout).1.symm⟩ hvalue

/-- After a sum the second pass accepts `+` or `-` and its operand only. -/
theorem operand_of_sumFrom {item : Item} {total v : Value} {more : List Item}
    (h : sumFrom total (item :: more) = .ok v) :
    ∃ (op : Operator) (operand : Value) (later : List Item) (result : Value),
      item = .operator op ∧ (op = .plus ∨ op = .minus) ∧ more = .value operand :: later ∧
        op.value? total operand = some result ∧ sumFrom result later = .ok v := by
  unfold sumFrom at h
  split at h
  · next heq => cases heq
  · next op rest heq =>
    obtain ⟨rfl, rfl⟩ := List.cons.inj heq
    split at h
    · next hadditive =>
      split at h
      · next operand later =>
        obtain ⟨result, hresult, hlater⟩ := bind_eq_ok_iff.mp h
        exact ⟨op, operand, later, result, rfl, Operator.isAdditive_iff.mp hadditive, rfl,
          Operator.apply_eq_ok_iff.mp hresult, hlater⟩
      · cases h
    · cases h
  · cases h

/-- The second pass, after a sum, reads products with operators between them. -/
theorem exists_sum_of_sumFrom {s : Derivation .sum} {total v : Value} {rest more : List Item}
    (hvalue : s.value? = some total) (hcontinues : Continues rest more)
    (h : sumFrom total more = .ok v) :
    ∃ larger : Derivation .sum, larger.items = s.items ++ rest ∧ larger.value? = some v := by
  induction hlength : rest.length using Nat.strongRecOn generalizing s total rest more with
  | ind length ih =>
    subst hlength
    rcases hcontinues with - | @⟨item, later, _, hmore⟩
    · exact ⟨s, by simp, by rw [hvalue, Except.ok.inj h]⟩
    obtain ⟨head, tail, rfl, hhead⟩ := head_of_productsFrom hmore
    obtain ⟨op, operand, more, result, rfl, loose, rfl, hresult, hlast⟩ := operand_of_sumFrom h
    obtain ⟨rfl, htail⟩ := hhead op rfl
    obtain ⟨p, rest', hitems, hless, hp, hcontinues⟩ := exists_product_of_continues htail
    have hsum : (Derivation.sum s op loose p).value? = some result := by
      simp [Derivation.value?, hvalue, hp, hresult]
    obtain ⟨larger, hlarger, hv⟩ :=
      ih rest'.length (Nat.lt_succ_of_lt hless) hsum hcontinues hlast rfl
    refine ⟨larger, ?_, hv⟩
    rw [hlarger, ← hitems]
    simp [Derivation.items]

theorem continues_of_products {items out : List Item} (h : products items = .ok out) :
    Continues items out := by
  unfold products at h
  split at h
  · cases h
    exact .nil
  · split at h
    · cases h
    · exact .cons h
  · exact .cons h

/-- The second pass starts with a value. -/
theorem value_of_sum {items : List Item} {v : Value} (h : sum items = .ok v) :
    ∃ first rest, items = .value first :: rest ∧ sumFrom first rest = .ok v := by
  unfold sum at h
  split at h
  · cases h
  · next first rest => exact ⟨first, rest, rfl, h⟩
  · cases h

/-- **The two passes accept only what has a derivation with that value.** -/
theorem exists_derivation_of_evaluateFlat {items : List Item} {v : Value}
    (h : evaluateFlat items = .ok v) :
    ∃ d : Derivation .sum, d.items = items ∧ d.value? = some v := by
  obtain ⟨out, hproducts, hsum⟩ := bind_eq_ok_iff.mp h
  obtain ⟨first, rest, rfl, hrest⟩ := value_of_sum hsum
  obtain ⟨p, rest', rfl, -, hp, hcontinues⟩ :=
    exists_product_of_continues (continues_of_products hproducts)
  exact exists_sum_of_sumFrom (s := .term p) hp hcontinues hrest

/-! ## What the two passes compute -/

/-- Whether an item is no parenthesis. -/
def Item.IsFlat (item : Item) : Prop :=
  item.isLeftParen = false ∧ item.isRightParen = false

/-- A derivation without groups, told from its items. -/
def Derivation.IsFlat {tier : Tier} (d : Derivation tier) : Prop :=
  ∀ item ∈ d.items, item.IsFlat

theorem Item.isFlat_value (v : Value) : (Item.value v).IsFlat := ⟨rfl, rfl⟩

theorem Item.isFlat_operator (op : Operator) : (Item.operator op).IsFlat := ⟨rfl, rfl⟩

/-- Flat lists around an operator are a flat list. -/
theorem isFlat_append_cons_iff {left right : List Item} {op : Operator} :
    (∀ item ∈ left ++ .operator op :: right, item.IsFlat) ↔
      (∀ item ∈ left, item.IsFlat) ∧ ∀ item ∈ right, item.IsFlat := by
  rw [List.forall_mem_append, List.forall_mem_cons, and_iff_right (Item.isFlat_operator op)]

namespace Derivation

theorem isFlat_value (v : Value) : (value v).IsFlat := by
  simp [IsFlat, items, Item.isFlat_value]

theorem isFlat_product_iff {left : Derivation .product} {op : Operator}
    {tight : op = .times ∨ op = .divide} {right : Derivation .factor} :
    (product left op tight right).IsFlat ↔ left.IsFlat ∧ right.IsFlat :=
  isFlat_append_cons_iff

theorem isFlat_sum_iff {left : Derivation .sum} {op : Operator}
    {loose : op = .plus ∨ op = .minus} {right : Derivation .product} :
    (sum left op loose right).IsFlat ↔ left.IsFlat ∧ right.IsFlat :=
  isFlat_append_cons_iff

/-- A factor without groups is a value. -/
theorem exists_eq_value_of_isFlat (factor : Derivation .factor) (h : factor.IsFlat) :
    ∃ v, factor = .value v := by
  cases factor with
  | value v => exact ⟨v, rfl⟩
  | group inner => exact nomatch (h .leftParen (by simp [items])).1

end Derivation

/-- The first pass, on a flat product, comes to its value. -/
theorem productsFrom_of_isFlat {p : Derivation .product} {a : Value} (hflat : p.IsFlat)
    (hvalue : p.value? = some a) :
    ∃ first tail, p.items = .value first :: tail ∧
      ∀ rest, productsFrom (.value first) (tail ++ rest) = productsFrom (.value a) rest := by
  match p with
  | .single factor =>
    obtain ⟨v, rfl⟩ := factor.exists_eq_value_of_isFlat hflat
    obtain rfl := Option.some.inj hvalue
    exact ⟨v, [], rfl, fun rest => rfl⟩
  | .product left op tight right =>
    obtain ⟨hleft, hright⟩ := Derivation.isFlat_product_iff.mp hflat
    obtain ⟨b, rfl⟩ := right.exists_eq_value_of_isFlat hright
    obtain ⟨c, hc, hop⟩ := Option.bind_eq_some_iff.mp hvalue
    obtain ⟨first, tail, hitems, htail⟩ := productsFrom_of_isFlat hleft hc
    refine ⟨first, tail ++ [.operator op, .value b], ?_, fun rest => ?_⟩
    · simp [Derivation.items, hitems]
    · have hresult : op.apply c b = .ok a := Operator.apply_eq_ok_iff.mpr hop
      rw [List.append_assoc, htail, List.cons_append, List.cons_append, List.nil_append,
        productsFrom_of_bindsTighter (Operator.bindsTighter_iff.mpr tight), hresult]
      rfl

theorem sumFrom_append {front rest : List Item} {start total : Value}
    (h : sumFrom start front = .ok total) :
    sumFrom start (front ++ rest) = sumFrom total rest := by
  fun_induction sumFrom start front with
  | case1 start => rw [Except.ok.inj h, List.nil_append]
  | case2 start op additive operand later ih =>
    obtain ⟨result, hresult, hlater⟩ := bind_eq_ok_iff.mp h
    rw [List.cons_append, List.cons_append, sumFrom_of_isAdditive additive, hresult]
    exact ih result hlater
  | case3 => cases h
  | case4 => cases h
  | case5 => cases h

/-- A sum that has been computed goes on with what follows it. -/
theorem sum_append {front rest : List Item} {total : Value} (h : sum front = .ok total) :
    sum (front ++ rest) = sumFrom total rest := by
  obtain ⟨first, tail, rfl, htail⟩ := value_of_sum h
  exact sumFrom_append htail

/-- The first pass turns a flat sum into a list that the second pass works off. -/
theorem products_of_isFlat {s : Derivation .sum} {total : Value} (hflat : s.IsFlat)
    (hvalue : s.value? = some total) :
    ∃ front last, sum (front ++ [.value last]) = .ok total ∧
      ∀ rest, products (s.items ++ rest) = (front ++ ·) <$> productsFrom (.value last) rest := by
  match s with
  | .term product =>
    obtain ⟨first, tail, hitems, htail⟩ :=
      productsFrom_of_isFlat (p := product) hflat (a := total) hvalue
    refine ⟨[], total, rfl, fun rest => ?_⟩
    simp only [Derivation.items, hitems, List.cons_append, products, htail]
    simp
  | .sum left op loose right =>
    obtain ⟨hleft, hright⟩ := Derivation.isFlat_sum_iff.mp hflat
    obtain ⟨a, ha, hbind⟩ := Option.bind_eq_some_iff.mp hvalue
    obtain ⟨b, hb, hop⟩ := Option.bind_eq_some_iff.mp hbind
    obtain ⟨front, last, hsum, hproducts⟩ := products_of_isFlat hleft ha
    obtain ⟨first, tail, hitems, htail⟩ := productsFrom_of_isFlat hright hb
    have hadditive : op.isAdditive = true := Operator.isAdditive_iff.mpr loose
    refine ⟨front ++ [.value last, .operator op], b, ?_, fun rest => ?_⟩
    · have hresult : op.apply a b = .ok total := Operator.apply_eq_ok_iff.mpr hop
      have hsplit : front ++ [.value last, .operator op] ++ [.value b] =
          front ++ [.value last] ++ [.operator op, .value b] := by simp
      rw [hsplit, sum_append hsum, sumFrom_of_isAdditive hadditive, hresult]
      rfl
    · have hoperator : productsFrom (.value last) (.operator op :: (.value first :: tail ++ rest)) =
          ([.value last, .operator op] ++ ·) <$> productsFrom (.value b) rest := by
        rw [← htail, List.cons_append, productsFrom_of_isAdditive hadditive]
      rw [Derivation.items, List.append_assoc, hproducts, hitems, List.cons_append, hoperator]
      simp

/-- **The two passes compute the value of a flat derivation.** -/
theorem evaluateFlat_of_isFlat {s : Derivation .sum} {v : Value} (hflat : s.IsFlat)
    (hvalue : s.value? = some v) : evaluateFlat s.items = .ok v := by
  obtain ⟨front, last, hsum, hproducts⟩ := products_of_isFlat hflat hvalue
  have hall : products s.items = .ok (front ++ [.value last]) := by
    rw [← List.append_nil s.items]
    exact hproducts []
  simp only [evaluateFlat, hall]
  exact hsum

/-! ## Groups -/

/-- What reduction accepts has a derivation with that value. -/
theorem exists_derivation_of_reduce {items : List Item} {v : Value} (h : reduce items = .ok v) :
    ∃ d : Derivation .sum, d.items = items ∧ d.value? = some v := by
  fun_induction reduce items generalizing v with
  | case1 items hany group hgroup ihinner ihreplace =>
    obtain ⟨w, hinner, hrest⟩ := bind_eq_ok_iff.mp h
    obtain ⟨inner, hinneritems, hw⟩ := ihinner hinner
    obtain ⟨outer, houteritems, hv⟩ := ihreplace w hrest
    obtain ⟨d, hd, hvalue⟩ := outer.exists_group_for_value inner hw houteritems
    refine ⟨d, ?_, hvalue.trans hv⟩
    rw [hd, hinneritems, ← items_of_innermostGroup? hgroup]
    simp [Group.items]
  | case2 => cases h
  | case3 => cases h
  | case4 => exact exists_derivation_of_evaluateFlat h

/-- Without groups reduction is the two passes. -/
theorem reduce_of_isFlat {items : List Item} (h : ∀ item ∈ items, item.IsFlat) :
    reduce items = evaluateFlat items := by
  have hleft : items.any Item.isLeftParen = false :=
    List.any_eq_false.mpr fun item hitem => by simp [(h item hitem).1]
  have hright : items.any Item.isRightParen = false :=
    List.any_eq_false.mpr fun item hitem => by simp [(h item hitem).2]
  rw [reduce, hleft, hright]
  simp

/-- The group that closes at the first closing parenthesis is looked for from there
backwards. -/
theorem innermostGroup?_of_not_mem {front : List Item} (hfront : .rightParen ∉ front)
    (after : List Item) :
    innermostGroup? (front ++ .rightParen :: after) =
      match front.reverse.dropWhile (!·.isLeftParen) with
      | [] => none
      | _ :: before =>
        some ⟨before.reverse, (front.reverse.takeWhile (!·.isLeftParen)).reverse, after⟩ := by
  have hopen : ∀ item ∈ front, (!item.isRightParen) = true := by
    intro item hitem
    cases item with
    | rightParen => exact absurd hitem hfront
    | _ => rfl
  have hright : (!Item.rightParen.isRightParen) = false := rfl
  simp only [innermostGroup?, List.takeWhile_append_of_pos hopen,
    List.dropWhile_append_of_pos hopen, List.takeWhile_cons, List.dropWhile_cons, hright,
    List.append_nil, Bool.false_eq_true, if_false]
  cases front.reverse.dropWhile (!·.isLeftParen) <;> rfl

/-- A group without groups inside, and with no parenthesis closed before it, closes first. -/
theorem innermostGroup?_of_isFlat {before inner : List Item}
    (hbefore : ∀ item ∈ before, item.isRightParen = false)
    (hinner : ∀ item ∈ inner, item.IsFlat) (after : List Item) :
    innermostGroup? (before ++ .leftParen :: inner ++ .rightParen :: after) =
      some ⟨before, inner, after⟩ := by
  have hopen : .rightParen ∉ before ++ .leftParen :: inner := by
    intro hmem
    obtain hmem | hmem : .rightParen ∈ before ∨ .rightParen ∈ inner := by simpa using hmem
    · cases hbefore _ hmem
    · cases (hinner _ hmem).2
  have hfront : ∀ item ∈ inner.reverse, (!item.isLeftParen) = true := by
    intro item hitem
    simp [(hinner item (by simpa using hitem)).1]
  have hreverse : (before ++ .leftParen :: inner).reverse =
      inner.reverse ++ .leftParen :: before.reverse := by simp
  have hleft : (!Item.leftParen.isLeftParen) = false := rfl
  rw [innermostGroup?_of_not_mem hopen, hreverse]
  simp only [List.takeWhile_append_of_pos hfront, List.dropWhile_append_of_pos hfront,
    List.takeWhile_cons, List.dropWhile_cons, hleft, List.append_nil, Bool.false_eq_true,
    if_false, List.reverse_reverse]

/-- Such a group is reduced to its value. -/
theorem reduce_group {before inner after : List Item} {v : Value}
    (hbefore : ∀ item ∈ before, item.isRightParen = false)
    (hinner : ∀ item ∈ inner, item.IsFlat) (hv : evaluateFlat inner = .ok v) :
    reduce (before ++ .leftParen :: inner ++ .rightParen :: after) =
      reduce (before ++ .value v :: after) := by
  have hany : (before ++ .leftParen :: inner ++ .rightParen :: after).any Item.isLeftParen := by
    simp [Item.isLeftParen]
  have hgroup := innermostGroup?_of_isFlat hbefore hinner after
  rw [reduce, if_pos hany]
  split
  · next group heq =>
    rw [hgroup] at heq
    obtain rfl := Option.some.inj heq
    rw [reduce_of_isFlat hinner, hv]
    rfl
  · next heq =>
    rw [hgroup] at heq
    cases heq

/-- Two stretches are exchangeable if reduction does not tell them apart, wherever
they stand with no parenthesis closed before them. -/
def Exchangeable (items other : List Item) : Prop :=
  ∀ before after : List Item, (∀ item ∈ before, item.isRightParen = false) →
    reduce (before ++ items ++ after) = reduce (before ++ other ++ after)

/-- Both sides of an operator are exchanged one after the other. -/
theorem Exchangeable.append_cons {left left' right right' : List Item} {op : Operator}
    (hflat : ∀ item ∈ left', item.IsFlat) (hleft : Exchangeable left left')
    (hright : Exchangeable right right') :
    Exchangeable (left ++ .operator op :: right) (left' ++ .operator op :: right') := by
  intro before after hbefore
  have hopen : ∀ item ∈ before ++ left' ++ [.operator op], item.isRightParen = false := by
    intro item hitem
    obtain hitem | hitem | rfl := by simpa using hitem
    · exact hbefore item hitem
    · exact (hflat item hitem).2
    · rfl
  calc reduce (before ++ (left ++ .operator op :: right) ++ after)
      = reduce (before ++ left ++ (.operator op :: right ++ after)) := by simp
    _ = reduce (before ++ left' ++ (.operator op :: right ++ after)) := hleft _ _ hbefore
    _ = reduce (before ++ left' ++ [.operator op] ++ right ++ after) := by simp
    _ = reduce (before ++ left' ++ [.operator op] ++ right' ++ after) := hright _ _ hopen
    _ = reduce (before ++ (left' ++ .operator op :: right') ++ after) := by simp

/-- A group around a flat sum is exchangeable for its value. -/
theorem Exchangeable.group {items : List Item} {flat : Derivation .sum} {v : Value}
    (hflat : flat.IsFlat) (hvalue : flat.value? = some v) (h : Exchangeable items flat.items) :
    Exchangeable (.leftParen :: items ++ [.rightParen]) [.value v] := by
  intro before after hbefore
  have hopen : ∀ item ∈ before ++ [.leftParen], item.isRightParen = false := by
    intro item hitem
    obtain hitem | rfl := by simpa using hitem
    · exact hbefore item hitem
    · rfl
  calc reduce (before ++ (.leftParen :: items ++ [.rightParen]) ++ after)
      = reduce (before ++ [.leftParen] ++ items ++ .rightParen :: after) := by simp
    _ = reduce (before ++ [.leftParen] ++ flat.items ++ .rightParen :: after) := h _ _ hopen
    _ = reduce (before ++ .leftParen :: flat.items ++ .rightParen :: after) := by simp
    _ = reduce (before ++ .value v :: after) :=
        reduce_group hbefore hflat (evaluateFlat_of_isFlat hflat hvalue)
    _ = reduce (before ++ [.value v] ++ after) := by simp

/-- A derivation that has a value can be exchanged for a flat one. -/
theorem Derivation.exists_isFlat {tier : Tier} (d : Derivation tier) {v : Value}
    (hvalue : d.value? = some v) :
    ∃ flat : Derivation tier, flat.IsFlat ∧ flat.value? = some v ∧
      Exchangeable d.items flat.items := by
  induction d generalizing v with
  | value w => exact ⟨.value w, isFlat_value w, hvalue, fun _ _ _ => rfl⟩
  | group inner ih =>
    obtain ⟨flat, hflat, hv, hexchange⟩ := ih hvalue
    exact ⟨.value v, isFlat_value v, rfl, hexchange.group hflat hv⟩
  | single factor ih =>
    obtain ⟨flat, hflat, hv, hexchange⟩ := ih hvalue
    exact ⟨.single flat, hflat, hv, hexchange⟩
  | term product ih =>
    obtain ⟨flat, hflat, hv, hexchange⟩ := ih hvalue
    exact ⟨.term flat, hflat, hv, hexchange⟩
  | product left op tight right ihleft ihright =>
    obtain ⟨a, ha, hbind⟩ := Option.bind_eq_some_iff.mp hvalue
    obtain ⟨b, hb, hop⟩ := Option.bind_eq_some_iff.mp hbind
    obtain ⟨l, hlflat, hl, hlexchange⟩ := ihleft ha
    obtain ⟨r, hrflat, hr, hrexchange⟩ := ihright hb
    exact ⟨.product l op tight r, isFlat_product_iff.mpr ⟨hlflat, hrflat⟩,
      by simp [value?, hl, hr, hop], hlexchange.append_cons hlflat hrexchange⟩
  | sum left op loose right ihleft ihright =>
    obtain ⟨a, ha, hbind⟩ := Option.bind_eq_some_iff.mp hvalue
    obtain ⟨b, hb, hop⟩ := Option.bind_eq_some_iff.mp hbind
    obtain ⟨l, hlflat, hl, hlexchange⟩ := ihleft ha
    obtain ⟨r, hrflat, hr, hrexchange⟩ := ihright hb
    exact ⟨.sum l op loose r, isFlat_sum_iff.mpr ⟨hlflat, hrflat⟩,
      by simp [value?, hl, hr, hop], hlexchange.append_cons hlflat hrexchange⟩

/-- What has a derivation with a value is accepted with that value. -/
theorem reduce_items {d : Derivation .sum} {v : Value} (hvalue : d.value? = some v) :
    reduce d.items = .ok v := by
  obtain ⟨flat, hflat, hv, hexchange⟩ := d.exists_isFlat hvalue
  calc reduce d.items
      = reduce ([] ++ d.items ++ []) := by simp
    _ = reduce ([] ++ flat.items ++ []) := hexchange [] [] (by simp)
    _ = reduce flat.items := by simp
    _ = evaluateFlat flat.items := reduce_of_isFlat hflat
    _ = .ok v := evaluateFlat_of_isFlat hflat hv

/-- **Reduction accepts exactly the lists whose derivation has a value.** -/
theorem reduce_eq_ok_iff {items : List Item} {v : Value} :
    reduce items = .ok v ↔ ∃ d : Derivation .sum, d.items = items ∧ d.value? = some v := by
  constructor
  · exact exists_derivation_of_reduce
  · rintro ⟨d, rfl, hvalue⟩
    exact reduce_items hvalue

/-! ## Tokens -/

/-- What a filter yields comes from something in the list. -/
theorem exists_mem_of_filterMapM {ε α β : Type} {f : α → Except ε (Option β)} {as : List α}
    {bs : List β} (h : as.filterMapM f = .ok bs) {b : β} (hb : b ∈ bs) :
    ∃ a ∈ as, f a = .ok (some b) := by
  induction as generalizing bs with
  | nil =>
    cases h
    cases hb
  | cons a as ih =>
    rw [List.filterMapM_cons] at h
    obtain ⟨found?, hfound, hrest⟩ := bind_eq_ok_iff.mp h
    cases found? with
    | none =>
      obtain ⟨a', hmem, ha'⟩ := ih hrest hb
      exact ⟨a', List.mem_cons_of_mem a hmem, ha'⟩
    | some found =>
      obtain ⟨others, hothers, hbs⟩ := bind_eq_ok_iff.mp hrest
      cases hbs
      rcases List.mem_cons.mp hb with rfl | hb
      · exact ⟨a, List.mem_cons_self, hfound⟩
      · obtain ⟨a', hmem, ha'⟩ := ih hothers hb
        exact ⟨a', List.mem_cons_of_mem a hmem, ha'⟩

/-- A filter that drops nothing relates the two lists element by element. -/
theorem filterMapM_eq_ok_iff {ε α β : Type} {f : α → Except ε (Option β)} {as : List α}
    (hkeep : ∀ a ∈ as, f a ≠ .ok none) {bs : List β} :
    as.filterMapM f = .ok bs ↔ List.Forall₂ (fun a b => f a = .ok (some b)) as bs := by
  induction as generalizing bs with
  | nil =>
    rw [List.filterMapM_nil, List.forall₂_nil_left_iff]
    exact ⟨fun h => (Except.ok.inj h).symm, fun h => h ▸ rfl⟩
  | cons a as ih =>
    have ih := @ih fun a' ha' => hkeep a' (List.mem_cons_of_mem a ha')
    rw [List.filterMapM_cons, List.forall₂_cons_left_iff, bind_eq_ok_iff]
    constructor
    · rintro ⟨found?, hfound, hrest⟩
      cases found? with
      | none => exact absurd hfound (hkeep a List.mem_cons_self)
      | some found =>
        obtain ⟨others, hothers, hbs⟩ := bind_eq_ok_iff.mp hrest
        exact ⟨found, others, hfound, ih.mp hothers, (Except.ok.inj hbs).symm⟩
    · rintro ⟨found, others, hfound, hothers, rfl⟩
      exact ⟨some found, hfound, bind_eq_ok_iff.mpr ⟨others, ih.mpr hothers, rfl⟩⟩

/-- The tokens of a text are no blanks. -/
theorem ne_blank_of_mem_tokenize {text : List Char} {tokens : List Token}
    (h : tokenize text = .ok tokens) {token : Token} (hmem : token ∈ tokens) :
    token ≠ .blank := by
  obtain ⟨lexeme, -, htoken⟩ := exists_mem_of_filterMapM h hmem
  rintro rfl
  cases lexeme <;> cases htoken

/-- The tokens of a text have no text literal that is not closed. -/
theorem ne_unclosedText_of_mem_tokenize {text : List Char} {tokens : List Token}
    (h : tokenize text = .ok tokens) {token : Token} (hmem : token ∈ tokens) :
    token ≠ .unclosedText := by
  obtain ⟨lexeme, -, htoken⟩ := exists_mem_of_filterMapM h hmem
  rintro rfl
  cases lexeme <;> cases htoken

/-- A token and the item in its place, names being replaced by their values. -/
inductive Replaces (store : Store) : Token → Item → Prop where
  | number (n : Float) : Replaces store (.number n) (.value (.number n))
  | text (content : String) : Replaces store (.text content) (.value (.text content))
  | name {name : String} {v : Value} (h : store.get? name = some v) :
      Replaces store (.name name) (.value v)
  | operator (op : Operator) : Replaces store (.operator op) (.operator op)
  | leftParen : Replaces store .leftParen .leftParen
  | rightParen : Replaces store .rightParen .rightParen

/-- Resolution puts in place of a token what replaces it. -/
theorem resolve_eq_ok_iff {store : Store} {token : Token} {item : Item} :
    Item.resolve store token = .ok (some item) ↔ Replaces store token item := by
  constructor
  · intro h
    cases token with
    | name name =>
      obtain ⟨v, hv, hitem⟩ := map_eq_ok_iff.mp h
      obtain rfl := Option.some.inj hitem
      unfold Store.lookup at hv
      split at hv
      · next found hfound =>
        obtain rfl := Except.ok.inj hv
        exact .name hfound
      · cases hv
    | number | text | operator | leftParen | rightParen =>
      cases h
      constructor
    | unclosedText | blank => cases h
  · intro h
    cases h with
    | name h => simp [Item.resolve, Store.lookup, h, Except.map]
    | _ => rfl

theorem resolve_ne_ok_none {store : Store} {token : Token} (h : token ≠ .blank) :
    Item.resolve store token ≠ .ok none := by
  intro hnone
  cases token with
  | name name =>
    obtain ⟨v, -, hitem⟩ := map_eq_ok_iff.mp hnone
    cases hitem
  | blank => exact h rfl
  | _ => cases hnone

/-- **Evaluation accepts exactly the grammar.**  The tokens of a text have a value
just if every name among them is bound and the items in their place have a
derivation with that value. -/
theorem evaluateTokens_eq_ok_iff {text : List Char} {tokens : List Token}
    (htokens : tokenize text = .ok tokens) (store : Store) (line : Nat) (v : Value) :
    locate line (evaluateTokens store tokens) = .ok v ↔
      ∃ items, List.Forall₂ (Replaces store) tokens items ∧
        ∃ d : Derivation .sum, d.items = items ∧ d.value? = some v := by
  have hkeep : ∀ token ∈ tokens, Item.resolve store token ≠ .ok none := fun token hmem =>
    resolve_ne_ok_none (ne_blank_of_mem_tokenize htokens hmem)
  calc locate line (evaluateTokens store tokens) = .ok v
      ↔ ∃ items, tokens.filterMapM (Item.resolve store) = .ok items ∧ reduce items = .ok v :=
        locate_eq_ok_iff.trans bind_eq_ok_iff
    _ ↔ _ := by
        simp only [filterMapM_eq_ok_iff hkeep, resolve_eq_ok_iff, reduce_eq_ok_iff]

/-- Where `가` is 3, `2 + 가 * 4` is 14 and nothing else, as the tiers demand, and
`(2 + 가) * 4` is 20. -/
theorem evaluateTokens_eq_ok_iff_tiers :
    let number (digits : String) : Float := Number.ofDigits digits.toList
    let store := Store.empty.set "가" (.number (number "3"))
    let mixed : List Token := [.number (number "2"), .operator .plus, .name "가", .operator .times,
      .number (number "4")]
    let grouped : List Token := [.leftParen, .number (number "2"), .operator .plus, .name "가",
      .rightParen, .operator .times, .number (number "4")]
    tokenize "2 + 가 * 4".toList = .ok mixed ∧ tokenize "(2 + 가) * 4".toList = .ok grouped ∧
      locate 1 (evaluateTokens store mixed) = .ok (.number (number "14")) ∧
      (∀ items, List.Forall₂ (Replaces store) mixed items → ∀ d : Derivation .sum,
        d.items = items → d.value? ≠ some (.number (number "20"))) ∧
      locate 1 (evaluateTokens store grouped) = .ok (.number (number "20")) := by
  intro number store mixed grouped
  have hmixed : tokenize "2 + 가 * 4".toList = .ok mixed := by decide +kernel
  have hgrouped : tokenize "(2 + 가) * 4".toList = .ok grouped := by decide +kernel
  have hname : Replaces store (.name "가") (.value (.number (number "3"))) :=
    .name (by simp [store, Store.get?_set])
  let two : Derivation .factor := .value (.number (number "2"))
  let three : Derivation .factor := .value (.number (number "3"))
  let four : Derivation .factor := .value (.number (number "4"))
  have hfourteen : locate 1 (evaluateTokens store mixed) = .ok (.number (number "14")) := by
    refine (evaluateTokens_eq_ok_iff hmixed store 1 _).mpr ⟨_, ?_,
      .sum (.term (.single two)) .plus (.inl rfl)
        (.product (.single three) .times (.inl rfl) four),
      rfl, by decide +kernel⟩
    exact .cons (.number _) (.cons (.operator _) (.cons hname (.cons (.operator _)
      (.cons (.number _) .nil))))
  refine ⟨hmixed, hgrouped, hfourteen, fun items hitems d hd htwenty => ?_, ?_⟩
  · have hother := (evaluateTokens_eq_ok_iff hmixed store 1 _).mpr ⟨items, hitems, d, hd, htwenty⟩
    have heq := Except.ok.inj (hfourteen.symm.trans hother)
    revert heq
    decide +kernel
  · refine (evaluateTokens_eq_ok_iff hgrouped store 1 _).mpr ⟨_, ?_,
      .term (.product (.single (.group (.sum (.term (.single two)) .plus (.inl rfl)
        (.single three)))) .times (.inl rfl) four), rfl, by decide +kernel⟩
    exact .cons .leftParen (.cons (.number _) (.cons (.operator _) (.cons hname
      (.cons .rightParen (.cons (.operator _) (.cons (.number _) .nil))))))

end KoreanScript
