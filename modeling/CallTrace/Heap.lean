import CallTrace.Snapshot
import CallTrace.Value

/-! # The heap

* `Heap`: the list cells of a run. A cell is never freed, and its number never changes.
* `Heap.copy`: a value that shares no cell with the original.
* `Heap.snapshot`, `Heap.text`, `Heap.equal`: the recorded form of a value, its text, and equality of
  two values by what they hold.

No list holds itself, so a list is nested no deeper than there are cells, and this number is enough
fuel for every walk through a value.
-/

namespace CallTrace
set_option autoImplicit false

/-- The list cells, each with its items. -/
structure Heap where
  cells : Array (Array Value)
  deriving Inhabited

namespace Heap

def empty : Heap := ⟨#[]⟩

def items (h : Heap) (c : CellId) : Array Value := h.cells.getD c #[]

def alloc (h : Heap) (items : Array Value) : Value × Heap :=
  (.list h.cells.size, ⟨h.cells.push items⟩)

def update (h : Heap) (c : CellId) (f : Array Value → Array Value) : Heap :=
  ⟨h.cells.modify c f⟩

theorem items_eq (h : Heap) (c : CellId) : h.items c = h.cells[c]?.getD #[] :=
  Array.getD_eq_getD_getElem?

theorem items_alloc_new (h : Heap) (items : Array Value) :
    (h.alloc items).2.items h.cells.size = items := by
  rw [items_eq, alloc, Array.getElem?_push_size]
  rfl

theorem items_alloc_of_lt {h : Heap} {c : CellId} (hc : c < h.cells.size) (items : Array Value) :
    (h.alloc items).2.items c = h.items c := by
  rw [items_eq, items_eq, alloc, Array.getElem?_push_lt hc, Array.getElem?_eq_getElem hc]

theorem items_eq_empty {h : Heap} {c : CellId} (hc : h.cells.size ≤ c) : h.items c = #[] := by
  rw [items_eq, Array.getElem?_eq_none hc]
  rfl

theorem lt_size_of_mem {h : Heap} {c : CellId} {v : Value} (hv : v ∈ h.items c) : c < h.cells.size := by
  rcases Nat.lt_or_ge c h.cells.size with hc | hc
  · exact hc
  · rw [items_eq_empty hc] at hv
    cases Array.not_mem_empty v hv

@[simp] theorem size_alloc (h : Heap) (items : Array Value) :
    (h.alloc items).2.cells.size = h.cells.size + 1 := Array.size_push items

@[simp] theorem size_update (h : Heap) (c : CellId) (f : Array Value → Array Value) :
    (h.update c f).cells.size = h.cells.size := Array.size_modify

theorem items_update_self {h : Heap} {c : CellId} (hc : c < h.cells.size)
    (f : Array Value → Array Value) : (h.update c f).items c = f (h.items c) := by
  rw [items_eq, items_eq, update, Array.getElem?_modify, if_pos rfl,
    Array.getElem?_eq_getElem hc]
  rfl

theorem items_update_of_ne {h : Heap} {c d : CellId} (hd : d ≠ c)
    (f : Array Value → Array Value) : (h.update c f).items d = h.items d := by
  rw [items_eq, items_eq, update, Array.getElem?_modify, if_neg (Ne.symm hd)]

/-! ## Copies -/

/-- Copies a value; a list that is nested deeper than the fuel is copied as an empty one. -/
def copyWith : Nat → Value → StateM Heap Value
  | fuel + 1, .list c => do
    let copies ← ((← get).items c).mapM (copyWith fuel)
    modifyGet (·.alloc copies)
  | 0, .list _ => modifyGet (·.alloc #[])
  | _, v => pure v

def copy (v : Value) (h : Heap) : Value × Heap := copyWith h.cells.size v h

/-- Adds `n` copies of a value to some items. -/
def copies (v : Value) : Nat → Array Value → StateM Heap (Array Value)
  | 0, done => pure done
  | n + 1, done => do
    let c ← copy v
    copies v n (done.push c)

/-! ## Views -/

/-- The recorded form of a value whose lists are nested no deeper than the fuel. -/
def snapshotWith (h : Heap) : Nat → Value → Snapshot
  | _, .undefined => .undefined
  | _, .bool b => .bool b
  | _, .int n => .int n
  | _, .float x => .float x
  | _, .str s => .str s
  | 0, .list _ => .list []
  | fuel + 1, .list c => .list ((h.items c).toList.map (h.snapshotWith fuel))

def snapshot (h : Heap) (v : Value) : Snapshot := h.snapshotWith h.cells.size v

/-- The text of a value whose lists are nested no deeper than the fuel. -/
def textWith (h : Heap) : Nat → Value → String
  | fuel + 1, .list c => "[" ++ ", ".intercalate ((h.items c).toList.map (h.textWith fuel)) ++ "]"
  | _, .list _ => "[]"
  | _, v => v.scalarText

def text (h : Heap) (v : Value) : String := h.textWith h.cells.size v

/-- Equality of values whose lists are nested no deeper than the fuel. -/
def equalWith (h : Heap) : Nat → Value → Value → Bool
  | fuel + 1, .list a, .list b =>
    let xs := h.items a
    let ys := h.items b
    xs.size == ys.size && (xs.toList.zip ys.toList).all fun (x, y) => h.equalWith fuel x y
  | _, x, y => x.scalarEq y

def equal (h : Heap) (x y : Value) : Bool := h.equalWith h.cells.size x y

end Heap

end CallTrace
