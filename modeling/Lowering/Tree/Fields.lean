/-!
# Named fields

Fields are an association list in increasing order of their names, without repetition. Names compare
by code points, which is also the order of their UTF-8 encodings.
-/

namespace Lowering.Fields

variable {α : Type}

/-- Gives a field a value, replacing the one it had. -/
def insert (name : String) (value : α) : List (String × α) → List (String × α)
  | [] => [(name, value)]
  | (other, old) :: rest =>
    if name < other then (name, value) :: (other, old) :: rest
    else if name = other then (name, value) :: rest
    else (other, old) :: insert name value rest

/-- A name is looked up in the first field before the others. -/
theorem lookup_cons (key name : String) (value : α) (fields : List (String × α)) :
    ((name, value) :: fields).lookup key = if key = name then some value else fields.lookup key := by
  by_cases h : key = name
  · simp [h]
  · have hb : (key == name) = false := by simpa using h
    simp [List.lookup_cons, h, hb]

/-- A field that is given a value has it, and any other keeps its own. -/
theorem lookup_insert (name key : String) (value : α) (fields : List (String × α)) :
    (insert name value fields).lookup key =
      if key = name then some value else fields.lookup key := by
  fun_induction insert name value fields with
  | case1 => rw [lookup_cons]
  | case2 => rw [lookup_cons]
  | case3 _ _ => grind [lookup_cons]
  | case4 _ _ _ _ _ ih => grind [lookup_cons]

/-- The fields given by a list of assignments, of which later ones win. -/
def ofList (assignments : List (String × α)) : List (String × α) :=
  assignments.foldl (fun fields (name, value) => insert name value fields) []

end Lowering.Fields
