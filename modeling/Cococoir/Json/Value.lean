import Mathlib.Data.List.Basic

/-!
# JSON values

What a JSON document is once it is read, how a reader looks into it, and how a record is written
field by field.  The texts themselves do not occur: reading a document and writing it are inverse,
and all that two programs can disagree about is which keys they write and which they look for.

A field that is absent is left out (`skippable`) or written as `null` (`nullable`), as the
record's author chose, and a reader that expects one of the two may meet the other.  An object is
therefore a list of pairs, put together by appending fields, and a reader takes the first pair
with its key.  The lemmas say what a reader finds under a key of a record built from such fields:
under the field's own key its value, under any other what the rest of the record has.
-/

namespace Cococoir
namespace Json

/-- A JSON value; a number is kept as it is written. -/
inductive Value : Type where
  | null : Value
  | bool (b : Bool) : Value
  | number (digits : String) : Value
  | string (s : String) : Value
  | array (values : List Value) : Value
  | object (fields : List (String × Value)) : Value

namespace Value

/-! ## Looking in -/

/-- The value under a key; only objects have keys. -/
def get (key : String) : Value → Option Value
  | .object fields => fields.lookup key
  | _ => none

/-- The text of a string. -/
def asStr : Value → Option String
  | .string s => some s
  | _ => none

/-- The keys of an object. -/
def keys : Value → List String
  | .object fields => fields.map Prod.fst
  | _ => []

/-! ## Writing records -/

/-- A field that is always written. -/
def field (key : String) (v : Value) : List (String × Value) := [(key, v)]

/-- A field that is left out when it is absent. -/
def skippable (key : String) : Option Value → List (String × Value)
  | some v => [(key, v)]
  | none => []

/-- A field that is `null` when it is absent. -/
def nullable (key : String) (v : Option Value) : List (String × Value) := [(key, v.getD .null)]

variable {key key' : String} {v : Value} {x : Option Value} {fields : List (String × Value)}

@[simp] theorem get_field_self : (object (field key v ++ fields)).get key = some v := by
  simp [get, field]

@[simp] theorem get_field_of_ne (h : key ≠ key') :
    (object (field key' v ++ fields)).get key = (object fields).get key := by
  have hne : (key == key') = false := beq_eq_false_iff_ne.mpr h
  simp [get, field, List.lookup_cons, hne]

@[simp] theorem get_skippable_of_ne (h : key ≠ key') :
    (object (skippable key' x ++ fields)).get key = (object fields).get key := by
  cases x with
  | none => rfl
  | some v => exact get_field_of_ne h

theorem get_skippable_self (h : key ∉ fields.map Prod.fst) :
    (object (skippable key x ++ fields)).get key = x := by
  cases x with
  | none =>
    refine List.lookup_eq_none_iff.mpr fun p hp => bne_iff_ne.mpr ?_
    rintro rfl
    exact h (List.mem_map.mpr ⟨p, hp, rfl⟩)
  | some v => exact get_field_self

/-- Nothing has a key in the object without fields. -/
@[simp] theorem get_object_nil : (object []).get key = none := rfl

end Value

end Json
end Cococoir
