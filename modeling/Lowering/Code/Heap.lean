import Lowering.Code.Value

/-!
# Slots

A heap holds the cells of all slots. A slot is never removed, and its identity is its place. A cell
has a value and a type tag; the two are usually kept in step, but each can be set alone, and a folded
literal is tagged `string` whatever its value is.

Reading a slot that is not there gives an empty cell and writing it does nothing, so no operation
fails.
-/

namespace Lowering

/-- The content of a slot with its type tag. -/
structure Cell where
  value : Value := .null
  type : TypeTag := .null

/-- The cells of all slots. -/
structure Heap where
  cells : Array Cell := #[]

namespace Heap

/-- The cell of a slot. -/
def get (heap : Heap) (slot : SlotId) : Cell :=
  heap.cells.getD slot.index {}

/-- The number of slots. -/
def size (heap : Heap) : Nat :=
  heap.cells.size

/-- The slot that is added next. -/
def next (heap : Heap) : SlotId :=
  ⟨heap.size⟩

/-- Adds a slot, which is the one that was `next`. -/
def add (heap : Heap) (cell : Cell) : Heap :=
  ⟨heap.cells.push cell⟩

/-- Replaces the cell of a slot. -/
def put (heap : Heap) (slot : SlotId) (cell : Cell) : Heap :=
  ⟨heap.cells.setIfInBounds slot.index cell⟩

/-- Changes the cell of a slot. -/
def modify (heap : Heap) (slot : SlotId) (change : Cell → Cell) : Heap :=
  heap.put slot (change (heap.get slot))

/-! ## What a slot holds after an operation -/

/-- Adding a slot makes the heap longer by one. -/
theorem size_add (heap : Heap) (cell : Cell) : (heap.add cell).size = heap.size + 1 := by
  simp [add, size]

/-- Putting a cell into a slot adds no slot. -/
theorem size_put (heap : Heap) (slot : SlotId) (cell : Cell) :
    (heap.put slot cell).size = heap.size := by
  simp [put, size]

/-- Changing a cell adds no slot. -/
theorem size_modify (heap : Heap) (slot : SlotId) (change : Cell → Cell) :
    (heap.modify slot change).size = heap.size :=
  size_put heap slot _

/-- A slot that is not there reads as an empty cell. -/
theorem get_of_size_le {heap : Heap} {slot : SlotId} (h : heap.size ≤ slot.index) :
    heap.get slot = {} := by
  simp only [size] at h
  simp [get, Array.getD, Nat.not_lt.mpr h]

/-- The slot that is added holds its cell. -/
theorem get_add_next (heap : Heap) (cell : Cell) : (heap.add cell).get heap.next = cell := by
  simp [get, add, next, size, Array.getD]

/-- Adding a slot changes no slot that was there. -/
theorem get_add_of_lt {heap : Heap} {slot : SlotId} (cell : Cell) (h : slot.index < heap.size) :
    (heap.add cell).get slot = heap.get slot := by
  simp only [size] at h
  simp [get, add, Array.getD, h, Nat.lt_succ_of_lt h, Array.getElem_push_lt h]

/-- A slot that is there holds the cell that it was given. -/
theorem get_put_self {heap : Heap} {slot : SlotId} (cell : Cell) (h : slot.index < heap.size) :
    (heap.put slot cell).get slot = cell := by
  simp only [size] at h
  simp [get, put, Array.getD, h]

/-- Giving a slot a cell changes no other slot. -/
theorem get_put_of_ne {heap : Heap} {slot other : SlotId} (cell : Cell) (h : slot ≠ other) :
    (heap.put slot cell).get other = heap.get other := by
  have hi : slot.index ≠ other.index := fun e => h (by cases slot; cases other; simp_all)
  simp only [get, put, Array.getD_eq_getD_getElem?, Array.getElem?_setIfInBounds_ne hi]

/-- Adding a slot changes what that slot holds and nothing else. -/
theorem get_add (heap : Heap) (cell : Cell) (slot : SlotId) :
    (heap.add cell).get slot = if slot = heap.next then cell else heap.get slot := by
  split
  · next h => rw [h, get_add_next]
  · next h =>
    by_cases hlt : slot.index < heap.size
    · exact get_add_of_lt cell hlt
    · -- Behind the added slot nothing is there, before and after.
      have hne : slot.index ≠ heap.size := fun e => h (by cases slot; simp_all [next])
      rw [get_of_size_le (by rw [size_add]; omega), get_of_size_le (by omega)]

/-- Changing a slot that is there changes what it holds and nothing else. -/
theorem get_modify (heap : Heap) (slot other : SlotId) (change : Cell → Cell) :
    (heap.modify slot change).get other =
      if slot = other ∧ slot.index < heap.size then change (heap.get other)
      else heap.get other := by
  unfold modify
  split
  · next h =>
    obtain ⟨rfl, hlt⟩ := h
    exact get_put_self _ hlt
  · next h =>
    by_cases heq : slot = other
    · have hle : heap.size ≤ other.index := by subst heq; simpa using h
      rw [get_of_size_le hle, get_of_size_le (by rw [size_put]; exact hle)]
    · exact get_put_of_ne _ heq

end Heap

namespace Cell

/-- A cell that holds a value under its own tag. -/
def ofValue (value : Value) : Cell :=
  ⟨value, value.typeTag⟩

/-- Sets the value and leaves the tag. -/
def setValue (value : Value) (cell : Cell) : Cell :=
  { cell with value := value }

/-- Sets the tag and leaves the value. -/
def setType (type : TypeTag) (cell : Cell) : Cell :=
  { cell with type := type }

/-- Sets the tag that the value calls for. -/
def rebuildType (cell : Cell) : Cell :=
  { cell with type := cell.value.typeTag }

/-- The cell of a literal that was folded into a slot, which is tagged as a string. -/
def ofLiteral (literal : Scalar) : Cell :=
  ⟨literal.toValue, .string⟩

/-- Appends an element; a value that is no array gives way to one. -/
def push (element : Value) (cell : Cell) : Cell :=
  ⟨.array (cell.value.elements ++ [element]), .array⟩

end Cell

end Lowering
