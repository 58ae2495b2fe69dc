import Sandboxie.Lib.SortedMap

/-!
# JSON values

Values and objects of JSON with the accessors of Qt's classes: an accessor gives its default
for a field that is missing or of another kind.  A string is a list of code units, and the
fields of an object stand in the order of their names.
-/

inductive Json
  | null
  | bool (b : Bool)
  | num (q : Rat)
  | str (s : List Nat)
  | arr (elements : List Json)
  | obj (fields : List (List Nat × Json))

namespace Json

abbrev Object := List (List Nat × Json)

/-- `QJsonObject::insert` -/
def Object.insert (o : Object) (name : List Nat) (v : Json) : Object :=
  SortedMap.insertEntry name v o

/-- `QJsonObject::value`, `none` for a value that is undefined. -/
def Object.value (o : Object) (name : List Nat) : Option Json := SortedMap.valueOf name o

theorem Object.value_insert (o : Object) (name name' : List Nat) (v : Json) :
    (o.insert name' v).value name = if name = name' then some v else o.value name := by
  refine (SortedMap.valueOf_insertEntry name name' v o).trans ?_
  split_ifs <;> rfl

theorem Object.value_nil (name : List Nat) : Object.value [] name = none := rfl

/-- `QJsonValue::toInt`: a whole number of 32 bits. -/
def toInt (v : Option Json) (dflt : Int) : Int :=
  match v with
  | some (.num q) =>
    if q.den = 1 ∧ -(2 ^ 31) ≤ q.num ∧ q.num < 2 ^ 31 then q.num else dflt
  | _ => dflt

/-- `QJsonValue::toBool` -/
def toBool (v : Option Json) (dflt : Bool) : Bool :=
  match v with
  | some (.bool b) => b
  | _ => dflt

/-- `QJsonValue::toString` -/
def toStr (v : Option Json) (dflt : List Nat) : List Nat :=
  match v with
  | some (.str s) => s
  | _ => dflt

/-- `QJsonValue::toArray` -/
def toArray (v : Option Json) : List Json :=
  match v with
  | some (.arr elements) => elements
  | _ => []

/-- `QJsonValue::toObject` -/
def toObject (v : Option Json) : Object :=
  match v with
  | some (.obj fields) => fields
  | _ => []

theorem toInt_num {n : Int} (hlow : -(2 ^ 31) ≤ n) (hhigh : n < 2 ^ 31) (dflt : Int) :
    toInt (some (.num n)) dflt = n := by
  show (if (n : Rat).den = 1 ∧ -(2 ^ 31) ≤ (n : Rat).num ∧ (n : Rat).num < 2 ^ 31 then
    (n : Rat).num else dflt) = n
  rw [if_pos ⟨rfl, hlow, hhigh⟩]
  rfl

end Json
