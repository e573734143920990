import Lowering.Proofs.Json.ReadBack

/-!
# Texts with one entry to a line

`Json.pretty` writes every entry of a container on a line of its own, with blanks in front that
count the containers around it. These are blanks wherever a text may have them, so a complete value
is read from its text (`read_pretty`).

`Json.nesting` counts how many containers of a value enclose one another. Nothing here depends on
it: a text of any nesting holds its value, and it is up to the reader of the value to refuse one
that nests too deeply.
-/

namespace Lowering.Json

/-! ## Nesting -/

mutual

/-- The greatest number of containers in a value that enclose one another. -/
def nesting : Json → Nat
  | .array items _ => itemsNesting items + 1
  | .object members _ => membersNesting members + 1
  | _ => 0

/-- The greatest nesting of the items of an array. -/
def itemsNesting : List Json → Nat
  | [] => 0
  | item :: rest => max item.nesting (itemsNesting rest)

/-- The greatest nesting of the members of an object. -/
def membersNesting : List (String × Json) → Nat
  | [] => 0
  | (_, value) :: rest => max value.nesting (membersNesting rest)

end

/-! ## Complete values -/

/-- A value all of whose containers are complete and all of whose numbers are read from their
texts. -/
inductive Complete : Json → Prop where
  | null : Complete .null
  | bool (b : Bool) : Complete (.bool b)
  | number {n : Number} : n.Readable → Complete (.number n)
  | string (s : String) : Complete (.string s)
  | list {items : List Json} : (∀ item ∈ items, Complete item) → Complete (.list items)
  | record {members : List (String × Json)} :
      (∀ member ∈ members, Complete member.2) → Complete (.record members)

/-! ## Lines -/

/-- Items are written one by one. -/
theorem prettyItems_eq_map (level : Nat) (items : List Json) :
    prettyItems level items = items.map (prettyAt level) := by
  induction items with
  | nil => rfl
  | cons item rest ih => rw [prettyItems, ih, List.map_cons]

/-- Members are written one by one, each behind its name. -/
theorem prettyMembers_eq_map (level : Nat) (members : List (String × Json)) :
    prettyMembers level members =
      members.map fun member => stringText member.1 ++ ": " ++ prettyAt level member.2 := by
  induction members with
  | nil => rfl
  | cons member rest ih => rw [prettyMembers, ih, List.map_cons]

/-- A line is indented by two blanks for each level. -/
theorem toList_indentation (level : Nat) :
    (indentation level).toList = List.replicate (2 * level) ' ' :=
  String.toList_ofList

/-- The break in front of a line at a level of nesting. -/
def lineBreak (level : Nat) : List Char :=
  '\n' :: List.replicate (2 * level) ' '

/-- The break in front of a line is blank. -/
theorem blank_lineBreak (level : Nat) : Blank (lineBreak level) := by
  rw [Blank, lineBreak, List.forall_mem_cons]
  refine ⟨by decide, fun c hc => ?_⟩
  rw [List.eq_of_mem_replicate hc]
  decide

/-- What stands in front of every part is in front of the first and after every separator. -/
theorem intercalate_map_append {α : Type} (sep lead : List α) (part : List α)
    (parts : List (List α)) :
    sep.intercalate ((part :: parts).map (lead ++ ·)) =
      lead ++ (sep ++ lead).intercalate (part :: parts) := by
  induction parts generalizing part with
  | nil => simp
  | cons next rest ih =>
    rw [List.map_cons, List.map_cons, List.intercalate_cons_cons, ← List.map_cons, ih,
      List.intercalate_cons_cons]
    simp only [List.append_assoc]

/-- The characters of a container with entries: a break after its bracket, after every comma and in
front of its end. -/
theorem toList_block (level : Nat) (opening closing : String) (entry : String)
    (entries : List String) :
    (block level opening closing (entry :: entries)).toList =
      opening.toList ++ (lineBreak (level + 1) ++
        ((',' :: lineBreak (level + 1)).intercalate ((entry :: entries).map String.toList) ++
          (lineBreak level ++ closing.toList))) := by
  have hlines := intercalate_map_append [',', '\n'] (List.replicate (2 * (level + 1)) ' ')
    entry.toList (entries.map String.toList)
  rw [← List.map_cons, List.map_map] at hlines
  have htexts : ((entry :: entries).map (indentation (level + 1) ++ ·)).map String.toList =
      (entry :: entries).map
        ((List.replicate (2 * (level + 1)) ' ' ++ ·) ∘ String.toList) := by
    rw [List.map_map]
    refine List.map_congr_left fun text _ => ?_
    rw [Function.comp_apply, String.toList_append, toList_indentation, Function.comp_apply]
  have hcomma : ",\n".toList = [',', '\n'] := rfl
  have hbreak : "\n".toList = ['\n'] := rfl
  unfold block
  simp only [List.isEmpty_cons, Bool.false_eq_true, if_false, String.toList_append,
    String.toList_intercalate, htexts, hcomma, hlines, hbreak, toList_indentation, lineBreak,
    List.append_assoc, List.cons_append, List.nil_append]

/-! ## Reading -/

/-- An array is read from its items, one to a line. -/
theorem reads_arrayBlock (level : Nat) {entries : List String} {items : List Json}
    (h : List.Forall₂ (fun entry item => Reads entry.toList item) entries items) :
    Reads (block level "[" "]" entries).toList (.list items) := by
  have htexts : List.Forall₂ Reads (entries.map String.toList) items :=
    List.forall₂_map_left_iff.mpr h
  cases entries with
  | nil => simpa [block] using reads_array blank_nil blank_nil htexts
  | cons entry rest =>
    rw [toList_block]
    exact reads_array (blank_lineBreak (level + 1)) (blank_lineBreak level) htexts

/-- An object is read from its members, one to a line. -/
theorem reads_objectBlock (level : Nat) {entries : List String} {members : List (String × Json)}
    (h : List.Forall₂ (fun entry member => ReadsMember entry.toList member) entries members) :
    Reads (block level "\x7b" "\x7d" entries).toList (.record members) := by
  have htexts : List.Forall₂ ReadsMember (entries.map String.toList) members :=
    List.forall₂_map_left_iff.mpr h
  cases entries with
  | nil => simpa [block] using reads_object blank_nil blank_nil htexts
  | cons entry rest =>
    rw [toList_block]
    exact reads_object (blank_lineBreak (level + 1)) (blank_lineBreak level) htexts

/-- A complete value is read from its text, at any level of nesting. -/
theorem Complete.reads_prettyAt {value : Json} (h : value.Complete) (level : Nat) :
    Reads (value.prettyAt level).toList value := by
  induction h generalizing level with
  | null => exact reads_null
  | bool b => exact reads_bool b
  | number hn => exact reads_number hn
  | string s => exact reads_string s
  | list _ ih =>
    rw [Json.list, prettyAt, prettyItems_eq_map]
    refine reads_arrayBlock level ?_
    rw [List.forall₂_map_left_iff, List.forall₂_same]
    exact fun item hitem => ih item hitem (level + 1)
  | record _ ih =>
    rw [Json.record, prettyAt, prettyMembers_eq_map]
    refine reads_objectBlock level ?_
    rw [List.forall₂_map_left_iff, List.forall₂_same]
    intro member hmember
    -- The blank behind the colon is the only one inside a line.
    refine ⟨[' '], _, by simp [Blank, isBlank], ?_, ih member hmember (level + 1)⟩
    simp

/-- The text of a complete value holds that value and nothing else. -/
theorem Complete.read_pretty {value : Json} (h : value.Complete) :
    read value.pretty = ⟨value, false⟩ :=
  (h.reads_prettyAt 0).document

end Lowering.Json
