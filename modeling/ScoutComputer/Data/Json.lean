import ScoutComputer.Machine

/-!
# `nlohmann::json` values

The operations of `nlohmann::json` the readers use, as its documentation gives
them. `none` is an exception. Parsing itself stays a parameter of whatever needs
it, of type `List Byte → Option Json`.
-/

namespace ScoutComputer

/-- A JSON value; the entries of an object are in the order it is iterated. -/
inductive Json where
  | null
  | bool (b : Bool)
  | int (n : Int)
  | float (q : Rat)
  | str (s : List Byte)
  | array (xs : List Json)
  | object (kvs : List (List Byte × Json))

namespace Json

/--
`operator[]` with a string key on a value that is not `const`. A missing key and a
null value give null; the entry this adds to the object is null as well, so it makes
no difference to a later call.
-/
def index (j : Json) (key : List Byte) : Option Json :=
  match j with
  | null => some null
  | object kvs => some ((kvs.lookup key).getD null)
  | _ => none

/-- What `begin()` to `end()` goes through: a primitive value is its own only element. -/
def elements : Json → List Json
  | null => []
  | array xs => xs
  | object kvs => kvs.map Prod.snd
  | j => [j]

/-- The conversion to `std::string`. -/
def asString : Json → Option (List Byte)
  | str s => some s
  | _ => none

theorem asString_eq_some {j : Json} {s : List Byte} : j.asString = some s ↔ j = str s := by
  cases j with
  | str t => simp [asString]
  | _ => simp [asString]

end Json

end ScoutComputer
