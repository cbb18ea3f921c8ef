import KoreanScript.Value
import Std.Data.TreeMap

/-!
# The variable store

There is one store per run.  Blocks have no scope of their own and variables are
never removed.  The bindings are kept in the order of their names, character by
character, which is also the order of the names' UTF-8 bytes.
-/

set_option autoImplicit false

namespace KoreanScript

/-- The variables of a run and their values. -/
structure Store where
  bindings : Std.TreeMap String Value

namespace Store

/-- The store before anything is assigned. -/
def empty : Store := ⟨∅⟩

/-- The value of a variable, if it has one. -/
def get? (store : Store) (name : String) : Option Value :=
  store.bindings[name]?

/-- The value of a variable that an expression reads. -/
def lookup (store : Store) (name : String) : Except Cause Value :=
  match store.get? name with
  | some value => .ok value
  | none => .error (.undefinedVariable name)

/-- Gives a variable a value in place of the one it had. -/
def set (store : Store) (name : String) (value : Value) : Store :=
  ⟨store.bindings.insert name value⟩

/-- Whether a variable has a value. -/
def contains (store : Store) (name : String) : Bool :=
  store.bindings.contains name

/-- The number of variables. -/
def size (store : Store) : Nat :=
  store.bindings.size

/-- Whether no variable has a value. -/
def isEmpty (store : Store) : Bool :=
  store.bindings.isEmpty

/-- All variables with their values, in the order of their names. -/
def toList (store : Store) : List (String × Value) :=
  store.bindings.toList

/-! ## Reading what was written -/

@[simp] theorem get?_empty (name : String) : empty.get? name = none := by
  simp [empty, get?]

theorem get?_set (store : Store) (name other : String) (value : Value) :
    (store.set name value).get? other = if name = other then some value else store.get? other := by
  simp [get?, set, Std.TreeMap.getElem?_insert]

/-! ## All variables -/

theorem mem_toList {store : Store} {name : String} {value : Value} :
    (name, value) ∈ store.toList ↔ store.get? name = some value :=
  Std.TreeMap.mem_toList_iff_getElem?_eq_some

theorem toList_ascending (store : Store) :
    store.toList.Pairwise fun earlier later => earlier.1 < later.1 := by
  have hordered : store.bindings.toList.Pairwise fun earlier later =>
      compare earlier.1 later.1 = .lt := Std.TreeMap.ordered_keys_toList
  exact hordered.imp compareOfLessAndEq_eq_lt.mp

end Store

end KoreanScript
