import CallTrace.Proofs.Evaluation.Call
import CallTrace.Proofs.Heap.Reach

/-! # Places as storage

* `Slot.content`: what a slot holds. Reading the slot gives it (`Exec.readSlot_eq`).
* `Slot.Encloses`, `Slot.Apart`: a place is the same as another one, or inside of it; neither is inside of the
  other.
* `Slot.Live`: the strings that a slot names characters of are there.
* `Machine.Stores`: what writing a value to a slot does. It can be read there, and what is read at places apart
  from it stays the same (`Exec.stores_of_writeSlot`).
* `Exec.Quiet`, `Exec.Sited`: the index expressions of a place have values and change nothing; what is no
  integer indexes something that has a value.
* `Exec.Agrees`: evaluating a place and reading it agree. There is one lemma for each kind of index.
* `Exec.places_store`: writing, and evaluating against reading.
-/

namespace CallTrace
set_option autoImplicit false

open Instrumented (Expr)

/-! ## Assigning and looking up -/

namespace CallStack

variable {s t : CallStack} {name other : String} {v : Value}

theorem lookup_assign_self (h : s.assign? name v = some t) : t.lookup name = some v := by
  obtain ⟨globals, frames, n, hn⟩ := s
  unfold assign? at h
  split at h
  · next hlocal =>
    obtain rfl := Option.some.inj h
    cases frames with
    | nil => cases hlocal
    | cons f rest =>
      show ((Assoc.put name v f.vars).lookup name).or _ = _
      rw [Assoc.lookup_put_self, Option.some_or]
  · next hlocal =>
    split at h
    · obtain rfl := Option.some.inj h
      cases frames with
      | nil => exact Assoc.lookup_put_self name v globals.vars
      | cons f rest =>
        have hnone : f.lookup name = none := by simpa [isLocal] using hlocal
        show (f.lookup name).or (List.lookup name (Assoc.put name v globals.vars)) = some v
        rw [hnone, Option.none_or, Assoc.lookup_put_self]
    · cases h

theorem lookup_assign_of_ne (h : s.assign? name v = some t) (hne : other ≠ name) :
    t.lookup other = s.lookup other := by
  obtain ⟨globals, frames, n, hn⟩ := s
  have hput (f : Frame) : (f.assign name v).lookup other = f.lookup other :=
    Assoc.lookup_put_of_ne hne v f.vars
  unfold assign? at h
  split at h
  · obtain rfl := Option.some.inj h
    cases frames with
    | nil => exact hput globals
    | cons f rest => exact congrArg (Option.or · _) (hput f)
  · split at h
    · obtain rfl := Option.some.inj h
      cases frames with
      | nil => exact hput globals
      | cons f rest => exact congrArg (Option.or _) (hput globals)
    · cases h

theorem tail_assign (h : s.assign? name v = some t) : t.frames.tail = s.frames.tail := by
  obtain ⟨globals, frames, n, hn⟩ := s
  unfold assign? at h
  split at h
  · obtain rfl := Option.some.inj h
    cases frames <;> rfl
  · split at h
    · obtain rfl := Option.some.inj h
      rfl
    · cases h

end CallStack

/-! ## Positions and characters -/

theorem position_eq_ok {i : Int} {size k : Nat} :
    position i size = .ok k ↔ (k : Int) = i ∧ k < size := by
  unfold position
  split
  · next h =>
    rw [Except.ok.injEq]
    omega
  · next h => exact ⟨nofun, fun hk => absurd (by omega) h⟩

/-- The characters of a string with one of them replaced. -/
def withChar (s : String) (k : Nat) (c : Char) : String := String.ofList (s.toList.set k c)

theorem length_withChar (s : String) (k : Nat) (c : Char) : (withChar s k c).length = s.length := by
  rw [withChar, String.length_ofList, List.length_set, String.length_toList]

theorem itemOf_str (h : Heap) (s : String) (i : Int) :
    itemOf h (.str s) i =
      (position i s.length).map fun k => .str (s.toList.getD k ' ').toString := by
  simp only [itemOf]
  cases position i s.length <;> rfl

theorem itemOf_withChar_self (h : Heap) {s : String} {i : Int} {k : Nat} (hk : position i s.length = .ok k)
    (c : Char) : itemOf h (.str (withChar s k c)) i = .ok (.str c.toString) := by
  have hlt : k < s.toList.length := by
    rw [String.length_toList]
    exact (position_eq_ok.mp hk).2
  rw [itemOf_str, length_withChar, hk, withChar, String.toList_ofList]
  simp [Except.map, hlt]

theorem itemOf_withChar_of_ne (h h' : Heap) {s : String} {i j : Int} {k : Nat}
    (hk : position i s.length = .ok k) (hne : i ≠ j) (c : Char) :
    itemOf h (.str (withChar s k c)) j = itemOf h' (.str s) j := by
  rw [itemOf_str, itemOf_str, length_withChar, withChar, String.toList_ofList]
  cases hl : position j s.length with
  | error cause => rfl
  | ok l =>
    have hkl : k ≠ l := by
      obtain ⟨rfl, -⟩ := position_eq_ok.mp hk
      obtain ⟨rfl, -⟩ := position_eq_ok.mp hl
      exact fun heq => hne (congrArg Int.ofNat heq)
    simp [Except.map, List.getElem?_set_ne hkl]

/-- What denotes a character as a string is the string of it. -/
theorem charOf_str {s : String} {c : Char} (h : charOf (.str s) = .ok c) : c.toString = s := by
  simp only [charOf] at h
  split at h
  · next hc =>
    split at hc
    · next hs =>
      obtain rfl := Except.ok.inj h
      obtain rfl := Option.some.inj hc
      rw [← String.toList_inj, hs]
      simp
    · cases hc
  · cases h

/-! ## What slots hold -/

namespace Slot

/-- What a slot holds. -/
def content (m : Machine) : Slot → Except Cause Value
  | .var name =>
    match m.stack.lookup name with
    | some v => .ok v
    | none => .error (.undefinedVariable name)
  | .item c i => itemOf m.heap (.list c) i
  | .char owner i => owner.content m >>= fun v => itemOf m.heap v i

/-- What a value is once it is stored: at the place of a character, the string of the character that the value
denotes. -/
def kept (v : Value) : Slot → Except Cause Value
  | .char _ _ => (charOf v).map fun c => .str c.toString
  | _ => .ok v

/-- The other place is the same, or inside of this one. -/
inductive Encloses (s : Slot) : Slot → Prop where
  | refl : Encloses s s
  | char {owner : Slot} {i : Int} : Encloses s owner → Encloses s (.char owner i)

/-- Neither place is the other one, or inside of it. -/
def Apart (s t : Slot) : Prop := ¬ s.Encloses t ∧ ¬ t.Encloses s

/-- The variable or the item that a slot is, or names a character in. -/
def base : Slot → Slot
  | .char owner _ => owner.base
  | s => s

/-- The list that has the item that a slot is, or names a character in. -/
def cell? (s : Slot) : Option CellId :=
  match s.base with
  | .item c _ => some c
  | _ => none

/-- The strings that the slot names characters of are there. -/
def Live (m : Machine) : Slot → Prop
  | .char owner _ => owner.Live m ∧ ∃ s, owner.content m = .ok (.str s)
  | _ => True

theorem base_encloses (s : Slot) : s.base.Encloses s := by
  induction s with
  | char owner i ih => exact .char ih
  | _ => exact .refl

theorem base_ne_char (owner : Slot) (i : Int) {s : Slot} : s.base ≠ .char owner i := by
  induction s with
  | char s j ih => exact ih
  | _ => nofun

theorem Encloses.sizeOf_le {s t : Slot} (h : s.Encloses t) : sizeOf s ≤ sizeOf t := by
  induction h with
  | refl => exact Nat.le_refl _
  | @char owner i _ ih =>
    have hlt : sizeOf owner < sizeOf (Slot.char owner i) := by
      rw [Slot.char.sizeOf_spec]
      omega
    exact Nat.le_of_lt (Nat.lt_of_le_of_lt ih hlt)

/-- Two characters of one string are apart. -/
theorem apart_char (owner : Slot) {i j : Int} (h : i ≠ j) : (char owner i).Apart (char owner j) := by
  have out {i j : Int} (h : i ≠ j) : ¬ (char owner i).Encloses (char owner j) := by
    intro he
    cases he with
    | refl => exact h rfl
    | char he =>
      have hle := he.sizeOf_le
      rw [Slot.char.sizeOf_spec] at hle
      omega
  exact ⟨out h, out (Ne.symm h)⟩

/-- Two items of one list are apart. -/
theorem apart_item (c : CellId) {i j : Int} (h : i ≠ j) : (item c i).Apart (item c j) := by
  constructor <;> intro he <;> cases he <;> exact h rfl

theorem kept_str {s : Slot} {text : String} {w : Value} (h : s.kept (.str text) = .ok w) :
    w = .str text := by
  cases s with
  | char owner i =>
    simp only [kept] at h
    cases hc : charOf (.str text) with
    | error cause =>
      rw [hc] at h
      cases h
    | ok c =>
      rw [hc] at h
      obtain rfl := Except.ok.inj h
      exact congrArg Value.str (charOf_str hc)
  | _ => exact (Except.ok.inj h).symm

end Slot

namespace Exec

theorem readSlot_eq (slot : Slot) (m : Machine) : readSlot slot m = ofExcept (slot.content m) m := by
  induction slot with
  | var name =>
    show lookup name m = _
    cases h : m.stack.lookup name with
    | some v =>
      rw [lookup_of_some h]
      simp only [Slot.content, h]
      rfl
    | none =>
      rw [lookup_of_none h]
      simp only [Slot.content, h]
      rfl
  | item c i => rfl
  | char owner i ih =>
    simp only [readSlot, Slot.content]
    cases h : owner.content m with
    | error cause => exact bind_of_error (by rw [ih, h]; rfl)
    | ok v => exact bind_of_ok (by rw [ih, h]; rfl)

theorem readSlot_of_ok {slot : Slot} {m : Machine} {v : Value} (h : slot.content m = .ok v) :
    readSlot slot m = .ok v m := by
  rw [readSlot_eq, h]
  rfl

theorem readSlot_of_error {slot : Slot} {m : Machine} {cause : Cause} (h : slot.content m = .error cause) :
    readSlot slot m = .error (.failed ⟨cause, m.line⟩) m := by
  rw [readSlot_eq, h]
  rfl

/-! ## Writing -/

section Writing

variable {m n : Machine} {slot t owner : Slot} {name : String} {c : CellId} {i j : Int} {v : Value}

theorem ok_of_ofExcept {α : Type} {e : Except Cause α} {a : α} (h : ofExcept e m = .ok a n) :
    e = .ok a ∧ n = m := by
  cases e with
  | ok b =>
    cases h
    exact ⟨rfl, rfl⟩
  | error cause => cases h

theorem ofExcept_inj {α : Type} {e e' : Except Cause α} (h : ofExcept e m = ofExcept e' m) : e = e' := by
  cases e <;> cases e' <;> cases h <;> rfl

theorem eq_of_ofExcept_error {α : Type} {e : Except Cause α} {x : Halt} (h : ofExcept e m = .error x n) :
    n = m := by
  cases e with
  | ok b => cases h
  | error cause =>
    cases h
    rfl

theorem writeSlot_var (h : writeSlot (.var name) v m = .ok () n) :
    ∃ stack, m.stack.assign? name v = some stack ∧ n = { m with stack } := by
  simp only [writeSlot, assign] at h
  split at h
  · next stack hs =>
    cases h
    exact ⟨stack, hs, rfl⟩
  · cases h

theorem writeSlot_item (h : writeSlot (.item c i) v m = .ok () n) :
    ∃ k, position i (m.heap.items c).size = .ok k ∧
      n = { m with heap := m.heap.update c fun items => items.setIfInBounds k v } := by
  obtain ⟨m₀, m₁, hget, hrest⟩ := ok_of_bind h
  cases hget
  obtain ⟨k, o, hpos, hwrite⟩ := ok_of_bind hrest
  obtain ⟨hk, ho⟩ := ok_of_ofExcept hpos
  cases hwrite
  exact ⟨k, hk, by rw [ho]⟩

theorem writeSlot_char (h : writeSlot (.char owner i) v m = .ok () n) :
    ∃ s x k, owner.content m = .ok (.str s) ∧ charOf v = .ok x ∧ position i s.length = .ok k ∧
      writeSlot owner (.str (withChar s k x)) m = .ok () n := by
  obtain ⟨w, m₁, hread, hrest⟩ := ok_of_bind h
  rw [readSlot_eq] at hread
  obtain ⟨hw, h₁⟩ := ok_of_ofExcept hread
  cases w with
  | str s =>
    dsimp only at hrest
    obtain ⟨x, m₂, hchar, hrest⟩ := ok_of_bind hrest
    obtain ⟨hx, h₂⟩ := ok_of_ofExcept hchar
    obtain ⟨k, m₃, hpos, hwrite⟩ := ok_of_bind hrest
    obtain ⟨hk, h₃⟩ := ok_of_ofExcept hpos
    rw [h₃, h₂, h₁] at hwrite
    exact ⟨s, x, k, hw, hx, hk, hwrite⟩
  | _ => cases hrest

/-- Writing a character writes the variable or the item that its string is in. -/
theorem writeSlot_base (h : writeSlot slot v m = .ok () n) :
    ∃ w, writeSlot slot.base w m = .ok () n := by
  induction slot generalizing v with
  | char owner i ih =>
    obtain ⟨s, x, k, -, -, -, h⟩ := writeSlot_char h
    exact ih h
  | _ => exact ⟨v, h⟩

/-- What was written can be read. -/
theorem content_of_writeSlot (h : writeSlot slot v m = .ok () n) :
    ∃ w, slot.kept v = .ok w ∧ slot.content n = .ok w := by
  induction slot generalizing v with
  | var name =>
    obtain ⟨stack, hs, rfl⟩ := writeSlot_var h
    exact ⟨v, rfl, by simp only [Slot.content, CallStack.lookup_assign_self hs]⟩
  | item c i =>
    obtain ⟨k, hk, rfl⟩ := writeSlot_item h
    have hlt := (position_eq_ok.mp hk).2
    have hc : c < m.heap.cells.size := by
      by_contra hc
      rw [Heap.items_eq_empty (Nat.not_lt.mp hc)] at hlt
      exact Nat.not_lt_zero k hlt
    refine ⟨v, rfl, ?_⟩
    simp only [Slot.content, itemOf, Heap.items_update_self hc, Array.size_setIfInBounds, hk]
    simp [bind, Except.bind, pure, Except.pure, hlt]
  | char owner i ih =>
    obtain ⟨s, x, k, -, hx, hk, h⟩ := writeSlot_char h
    obtain ⟨w, hw, hread⟩ := ih h
    obtain rfl := Slot.kept_str hw
    refine ⟨.str x.toString, by simp only [Slot.kept, hx]; rfl, ?_⟩
    simp only [Slot.content, hread]
    exact itemOf_withChar_self n.heap hk x

/-- Writing inside of a character of a string replaces this character of the string. -/
theorem content_owner_of_writeSlot (henc : (Slot.char owner i).Encloses slot)
    (h : writeSlot slot v m = .ok () n) :
    ∃ s x k, owner.content m = .ok (.str s) ∧ position i s.length = .ok k ∧
      owner.content n = .ok (.str (withChar s k x)) := by
  induction henc generalizing v with
  | refl =>
    obtain ⟨s, x, k, hread, -, hk, h⟩ := writeSlot_char h
    obtain ⟨w, hw, hwrote⟩ := content_of_writeSlot h
    obtain rfl := Slot.kept_str hw
    exact ⟨s, x, k, hread, hk, hwrote⟩
  | char _ ih =>
    obtain ⟨s, x, k, -, -, -, h⟩ := writeSlot_char h
    exact ih h

/-- A place that encloses another one is the same, or one of its characters does. -/
theorem Slot.Encloses.cases_char (h : owner.Encloses slot) :
    slot = owner ∨ ∃ j, (Slot.char owner j).Encloses slot := by
  induction h with
  | refl => exact .inl rfl
  | @char o j _ ih =>
    rcases ih with rfl | ⟨k, hk⟩
    · exact .inr ⟨j, .refl⟩
    · exact .inr ⟨k, .char hk⟩

theorem content_item_update (hne : t ≠ .item c i) (hbase : t.base = t) {k : Nat}
    (hk : position i (m.heap.items c).size = .ok k) :
    t.content { m with heap := m.heap.update c fun items => items.setIfInBounds k v } = t.content m := by
  cases t with
  | var name => rfl
  | item d j =>
    simp only [Slot.content, itemOf]
    by_cases hd : d = c
    · subst hd
      have hd : d < m.heap.cells.size := by
        by_contra hd
        rw [Heap.items_eq_empty (Nat.not_lt.mp hd)] at hk
        exact Nat.not_lt_zero k (position_eq_ok.mp hk).2
      rw [Heap.items_update_self hd, Array.size_setIfInBounds]
      cases hl : position j (m.heap.items d).size with
      | error cause => rfl
      | ok l =>
        have hkl : k ≠ l := by
          obtain ⟨rfl, -⟩ := position_eq_ok.mp hk
          obtain ⟨rfl, -⟩ := position_eq_ok.mp hl
          exact fun heq => hne (by rw [heq])
        simp [bind, Except.bind, Array.getElem?_setIfInBounds_ne hkl]
    · rw [Heap.items_update_of_ne hd]
  | char owner j => exact absurd hbase (Slot.base_ne_char owner j)

/-- A variable or an item that a write is not inside of stays the same. -/
theorem content_base_of_writeSlot (h : writeSlot slot v m = .ok () n) (hbase : t.base = t)
    (hne : t ≠ slot.base) : t.content n = t.content m := by
  obtain ⟨w, h⟩ := writeSlot_base h
  cases hs : slot.base with
  | char owner i => exact absurd hs (Slot.base_ne_char owner i)
  | var name =>
    rw [hs] at h hne
    obtain ⟨stack, hs, rfl⟩ := writeSlot_var h
    cases t with
    | var other =>
      have ho : other ≠ name := fun he => hne (congrArg Slot.var he)
      simp only [Slot.content, CallStack.lookup_assign_of_ne hs ho]
    | item d j => rfl
    | char owner j => exact absurd hbase (Slot.base_ne_char owner j)
  | item c i =>
    rw [hs] at h hne
    obtain ⟨k, hk, rfl⟩ := writeSlot_item h
    exact content_item_update hne hbase hk

/-- What is read at a place apart from the one that is written stays the same. -/
theorem content_of_apart (h : writeSlot slot v m = .ok () n) (hlive : t.Live m) (hapart : slot.Apart t) :
    t.content n = t.content m := by
  obtain ⟨hout, hin⟩ := hapart
  induction t with
  | char owner j ih =>
    obtain ⟨howner, s, hs⟩ := hlive
    have hout' : ¬ slot.Encloses owner := fun he => hout (.char he)
    by_cases henc : owner.Encloses slot
    · rcases Slot.Encloses.cases_char henc with rfl | ⟨i, hi⟩
      · exact absurd .refl hout'
      · have hij : i ≠ j := by
          rintro rfl
          exact hin hi
        obtain ⟨s', x, k, hs', hk, hwrote⟩ := content_owner_of_writeSlot hi h
        obtain rfl := Value.str.inj (Except.ok.inj (hs'.symm.trans hs))
        simp only [Slot.content, hwrote, hs']
        exact itemOf_withChar_of_ne n.heap m.heap hk hij x
    · simp only [Slot.content, ih howner hout' henc, hs]
      exact (itemOf_str n.heap s j).trans (itemOf_str m.heap s j).symm
  | var name => exact content_base_of_writeSlot h rfl fun he => hin (he ▸ slot.base_encloses)
  | item c i => exact content_base_of_writeSlot h rfl fun he => hin (he ▸ slot.base_encloses)

/-- A write changes nothing but variables of the innermost call and at top level, and the list of an item. -/
theorem unchanged_of_writeSlot (h : writeSlot slot v m = .ok () n) :
    n.stack.frames.tail = m.stack.frames.tail ∧ n.heap.cells.size = m.heap.cells.size ∧
      ∀ d, slot.cell? ≠ some d → n.heap.items d = m.heap.items d := by
  obtain ⟨w, h⟩ := writeSlot_base h
  cases hs : slot.base with
  | char owner i => exact absurd hs (Slot.base_ne_char owner i)
  | var name =>
    rw [hs] at h
    obtain ⟨stack, hs, rfl⟩ := writeSlot_var h
    exact ⟨CallStack.tail_assign hs, rfl, fun _ _ => rfl⟩
  | item c i =>
    rw [hs] at h
    obtain ⟨k, -, rfl⟩ := writeSlot_item h
    refine ⟨rfl, Heap.size_update .., fun d hd => Heap.items_update_of_ne (fun he => hd ?_) _⟩
    rw [Slot.cell?, hs, he]

/-- A write that fails changes nothing. -/
theorem eq_of_writeSlot_error {e : Halt} (h : writeSlot slot v m = .error e n) : n = m := by
  induction slot generalizing v with
  | var name =>
    simp only [writeSlot, assign] at h
    split at h <;> cases h
    rfl
  | item c i =>
    rcases error_of_bind h with hget | ⟨_, o, hget, hrest⟩
    · cases hget
    · cases hget
      rcases error_of_bind hrest with hpos | ⟨k, o, -, hwrite⟩
      · exact eq_of_ofExcept_error hpos
      · cases hwrite
  | char owner i ih =>
    rcases error_of_bind h with hread | ⟨w, m₁, hread, hrest⟩
    · exact eq_of_ofExcept_error (readSlot_eq owner m ▸ hread)
    · rw [readSlot_eq] at hread
      have h₁ : m₁ = m := (ok_of_ofExcept hread).2
      cases w with
      | str s =>
        dsimp only at hrest
        rcases error_of_bind hrest with hchar | ⟨x, m₂, hchar, hrest⟩
        · exact (eq_of_ofExcept_error hchar).trans h₁
        · have h₂ : m₂ = m := (ok_of_ofExcept hchar).2.trans h₁
          rcases error_of_bind hrest with hpos | ⟨k, m₃, hpos, hwrite⟩
          · exact (eq_of_ofExcept_error hpos).trans h₂
          · have h₃ : m₃ = m := (ok_of_ofExcept hpos).2.trans h₂
            exact ih (h₃ ▸ hwrite)
      | _ =>
        cases hrest
        exact h₁

end Writing

end Exec

/-- What writing a value to a slot does. -/
structure Machine.Stores (m : Machine) (slot : Slot) (v : Value) (n : Machine) : Prop where
  read : ∃ w, slot.kept v = .ok w ∧ Exec.readSlot slot n = .ok w n
  apart : ∀ t, t.Live m → slot.Apart t → ∀ r, Exec.readSlot t m = Exec.ofExcept r m →
    Exec.readSlot t n = Exec.ofExcept r n
  unseen : ∀ w, (∀ c, slot.cell? = some c → ¬ m.heap.Reaches w c) →
    n.heap.snapshot w = m.heap.snapshot w
  callers : n.stack.frames.tail = m.stack.frames.tail

namespace Exec

variable {m n : Machine} {slot : Slot} {v : Value}

/-- Writing a value stores it. -/
theorem stores_of_writeSlot (h : writeSlot slot v m = .ok () n) : m.Stores slot v n := by
  obtain ⟨hcallers, hsize, hitems⟩ := unchanged_of_writeSlot h
  refine ⟨?_, fun t hlive hapart r hr => ?_, fun w hw => ?_, hcallers⟩
  · obtain ⟨w, hw, hread⟩ := content_of_writeSlot h
    exact ⟨w, hw, readSlot_of_ok hread⟩
  · rw [readSlot_eq, content_of_apart h hlive hapart]
    rw [readSlot_eq] at hr
    rw [ofExcept_inj hr]
  · rw [Heap.snapshot, Heap.snapshot, hsize]
    exact Heap.snapshotWith_congr fun d hd => hitems d fun hs => hw d hs hd

/-! ## Evaluating and reading -/

/-- The index expressions of a place have values and change nothing. -/
def Quiet (env : Env) (m : Machine) : Nat → Expr → Prop
  | _, .var _ => True
  | fuel + 1, .index base index =>
    Quiet env m fuel base ∧ ∃ v, (meaning env fuel).eval index m = .ok v m
  | _, _ => False

/-- An index of a place that is no integer indexes something that has a value. -/
def Sited (env : Env) (m : Machine) : Nat → Expr → Prop
  | fuel + 1, .index base index =>
    Sited env m fuel base ∧ ∀ v, (meaning env fuel).eval index m = .ok v m → v.int? = none →
      ∃ w, (meaning env fuel).eval base m = .ok w m
  | _, _ => True

/-- Resolves an expression and reads the slot. -/
def readAt (env : Env) (fuel : Nat) (e : Expr) : Exec Value :=
  (meaning env fuel).resolve e >>= readSlot

theorem bind_congr_at {α β : Type} {a b : Exec α} (h : a m = b n) (f : α → Exec β) :
    (a >>= f) m = (b >>= f) n := by
  simp only [bind, EStateM.bind, h]

theorem readSlot_ok {w : Value} (h : readSlot slot m = .ok w n) : slot.content m = .ok w ∧ n = m :=
  ok_of_ofExcept (readSlot_eq slot m ▸ h)

theorem int?_of_intOf_error {expected : String} {cause : Cause} (h : intOf expected v = .error cause) :
    v.int? = none := by
  unfold intOf at h
  split at h
  · cases h
  · next hv => exact hv

/-- The slot of an element, given what the container is. -/
theorem elementSlot_of_ok {owner : Slot} {v : Value} (i : Int) (h : readSlot owner m = .ok v m) :
    elementSlot owner i m =
      match v with
      | .list c => .ok (.item c i) m
      | .str _ => .ok (.char owner i) m
      | v => fail (.typeMismatch "vector or string" v.kindName) m := by
  refine (bind_of_ok h).trans ?_
  cases v <;> rfl

/-- Reading the element of a place is taking the item of what is read at the place. -/
theorem elementSlot_read (owner : Slot) (i : Int) (m : Machine) :
    (elementSlot owner i >>= readSlot) m =
      (readSlot owner >>= fun v => ofExcept (itemOf m.heap v i)) m := by
  cases h : owner.content m with
  | error cause =>
    have hread := readSlot_of_error h
    have hslot : elementSlot owner i m = .error (.failed ⟨cause, m.line⟩) m := bind_of_error hread
    exact (bind_of_error hslot).trans (bind_of_error hread).symm
  | ok v =>
    have hread := readSlot_of_ok h
    have hslot := elementSlot_of_ok i hread
    refine Eq.trans ?_ (bind_of_ok hread).symm
    cases v with
    | list c => exact (bind_of_ok hslot).trans rfl
    | str s => exact (bind_of_ok hslot).trans (bind_of_ok hread)
    | _ => exact (bind_of_error hslot).trans rfl

variable {env : Env} {fuel : Nat} {base index e : Expr} {i : Value} {w : Value} {owner : Slot}

theorem eval_index_of_ok (hi : (meaning env fuel).eval index m = .ok i m)
    (hb : (meaning env fuel).eval base m = .ok w m) :
    (meaning env (fuel + 1)).eval (.index base index) m =
      (ofExcept (intOf "int index" i) >>= fun k => ofExcept (itemOf m.heap w k)) m := by
  refine (bind_of_ok hb).trans ((bind_of_ok hi).trans ?_)
  cases intOf "int index" i <;> rfl

theorem eval_index_of_error {x : Halt} (hb : (meaning env fuel).eval base m = .error x n) :
    (meaning env (fuel + 1)).eval (.index base index) m = .error x n := bind_of_error hb

theorem resolve_index_of_ok (hi : (meaning env fuel).eval index m = .ok i m)
    (hb : (meaning env fuel).resolve base m = .ok owner m) :
    (meaning env (fuel + 1)).resolve (.index base index) m =
      (ofExcept (intOf "int index" i) >>= elementSlot owner) m :=
  (bind_of_ok hb).trans (bind_of_ok hi)

theorem resolve_index_of_error {x : Halt} (hb : (meaning env fuel).resolve base m = .error x n) :
    (meaning env (fuel + 1)).resolve (.index base index) m = .error x n := bind_of_error hb

/-- A place whose index expressions have values and change nothing names a slot without a change. -/
theorem live_of_quiet (h : Quiet env m fuel e) {slot : Slot}
    (hr : (meaning env fuel).resolve e m = .ok slot n) : n = m ∧ slot.Live m := by
  induction fuel generalizing e slot n with
  | zero => cases hr
  | succ fuel ih =>
    cases e with
    | var name =>
      cases hr
      exact ⟨rfl, trivial⟩
    | index base index =>
      obtain ⟨hbase, i, hi⟩ := h
      cases hb : (meaning env fuel).resolve base m with
      | error x o => cases (resolve_index_of_error hb).symm.trans hr
      | ok owner o =>
        obtain ⟨rfl, howner⟩ := ih hbase hb
        rw [resolve_index_of_ok hi hb] at hr
        obtain ⟨k, o', hk, hslot⟩ := ok_of_bind hr
        have ho := (ok_of_ofExcept hk).2
        rw [ho] at hslot
        cases hc : owner.content o with
        | error cause => cases (bind_of_error (readSlot_of_error hc)).symm.trans hslot
        | ok v =>
          rw [elementSlot_of_ok k (readSlot_of_ok hc)] at hslot
          cases v with
          | list c =>
            cases hslot
            exact ⟨rfl, trivial⟩
          | str s =>
            cases hslot
            exact ⟨rfl, howner, s, hc⟩
          | _ => cases hslot
    | _ => exact h.elim

/-- Evaluating an expression and reading its place agree on values; and on errors, if what is no integer indexes
something that has a value. -/
structure Agrees (env : Env) (m : Machine) (fuel : Nat) (e : Expr) : Prop where
  value : ∀ w n, (meaning env fuel).eval e m = .ok w n ↔ readAt env fuel e m = .ok w n
  error : Sited env m fuel e → (meaning env fuel).eval e m = readAt env fuel e m

theorem Agrees.of_eq (h : (meaning env fuel).eval e m = readAt env fuel e m) : Agrees env m fuel e :=
  ⟨fun _ _ => by rw [h], fun _ => h⟩

/-- Where neither has a value, they agree on values; on errors they agree if the base has the error of the place. -/
theorem Agrees.of_errors {x y : Halt} {o o' : Machine} (hb : (meaning env fuel).eval base m = .error x o)
    (hr : readAt env (fuel + 1) (.index base index) m = .error y o')
    (hsame : Sited env m (fuel + 1) (.index base index) → (meaning env fuel).eval base m = .error y o') :
    Agrees env m (fuel + 1) (.index base index) where
  value w n := by
    rw [eval_index_of_error hb, hr]
    exact ⟨nofun, nofun⟩
  error hs := by
    rw [eval_index_of_error hb, hr]
    cases hb.symm.trans (hsame hs)
    rfl

/-- An index that is no integer: the place fails on it, and so does the value unless the base has none. -/
theorem Agrees.index_of_error (h : Agrees env m fuel base) (hslot : (meaning env fuel).resolve base m = .ok owner m)
    (hi : (meaning env fuel).eval index m = .ok i m) {cause : Cause} (hk : intOf "int index" i = .error cause) :
    Agrees env m (fuel + 1) (.index base index) := by
  have hbread : readAt env fuel base m = readSlot owner m := bind_of_ok hslot
  have hread : readAt env (fuel + 1) (.index base index) m = fail cause m := by
    refine bind_of_error ((resolve_index_of_ok hi hslot).trans (bind_of_error ?_))
    rw [hk]
    rfl
  cases hb : (meaning env fuel).eval base m with
  | ok w o =>
    obtain ⟨-, rfl⟩ := readSlot_ok (hbread.symm.trans ((h.value w o).mp hb))
    have heval : (meaning env (fuel + 1)).eval (.index base index) o = fail cause o := by
      rw [eval_index_of_ok hi hb, hk]
      rfl
    exact .of_eq (heval.trans hread.symm)
  | error x o =>
    refine .of_errors hb hread fun hs => ?_
    obtain ⟨w, hw⟩ := hs.2 i hi (int?_of_intOf_error hk)
    cases hb.symm.trans hw

/-- An index that is an integer: both take the item of what the base is. -/
theorem Agrees.index_of_ok (h : Agrees env m fuel base) (hslot : (meaning env fuel).resolve base m = .ok owner m)
    (hi : (meaning env fuel).eval index m = .ok i m) {k : Int} (hk : intOf "int index" i = .ok k) :
    Agrees env m (fuel + 1) (.index base index) := by
  have hbread : readAt env fuel base m = readSlot owner m := bind_of_ok hslot
  have hread : readAt env (fuel + 1) (.index base index) m =
      (readSlot owner >>= fun v => ofExcept (itemOf m.heap v k)) m := by
    rw [← elementSlot_read]
    refine bind_congr_at ((resolve_index_of_ok hi hslot).trans (bind_of_ok ?_)) _
    rw [hk]
    rfl
  cases hc : owner.content m with
  | ok w =>
    have howner := readSlot_of_ok hc
    have hb := (h.value w m).mpr (hbread.trans howner)
    refine .of_eq ?_
    rw [eval_index_of_ok hi hb, hread, hk, bind_of_ok howner]
    rfl
  | error cause =>
    have howner := readSlot_of_error hc
    cases hb : (meaning env fuel).eval base m with
    | ok w o => cases ((h.value w o).mp hb).symm.trans (hbread.trans howner)
    | error x o =>
      refine .of_errors hb (hread.trans (bind_of_error howner)) fun hs => ?_
      exact (h.error hs.1).trans (hbread.trans howner)

/-- Evaluating a place and reading it agree, by induction on the fuel. -/
theorem agrees_of_quiet (h : Quiet env m fuel e) : Agrees env m fuel e := by
  induction fuel generalizing e with
  | zero => exact .of_eq rfl
  | succ fuel ih =>
    cases e with
    | var name => exact .of_eq rfl
    | index base index =>
      obtain ⟨hbase, i, hi⟩ := h
      cases hslot : (meaning env fuel).resolve base m with
      | error y o =>
        have hbread : readAt env fuel base m = .error y o := bind_of_error hslot
        have hread : readAt env (fuel + 1) (.index base index) m = .error y o :=
          bind_of_error (resolve_index_of_error hslot)
        cases hb : (meaning env fuel).eval base m with
        | ok w o' => cases (((ih hbase).value w o').mp hb).symm.trans hbread
        | error x o' => exact .of_errors hb hread fun hs => ((ih hbase).error hs.1).trans hbread
      | ok owner o =>
        obtain rfl := (live_of_quiet hbase hslot).1
        cases hk : intOf "int index" i with
        | error cause => exact (ih hbase).index_of_error hslot hi hk
        | ok k => exact (ih hbase).index_of_ok hslot hi hk
    | _ => exact h.elim

/-- Places are storage. A value that is written to a slot is there afterwards, and what is read at places apart
from it stays the same, as it does when the write fails. A place whose index expressions have values and
change nothing has the value that is read there; where there is none, the errors are the same if each index
that is no integer is one of something that has a value. -/
theorem places_store (env : Env) (fuel : Nat) (m : Machine) :
    (∀ slot v n, writeSlot slot v m = .ok () n → m.Stores slot v n) ∧
      (∀ slot v x n, writeSlot slot v m = .error x n → n = m) ∧
      (∀ owner i j, i ≠ j → (Slot.char owner i).Apart (.char owner j)) ∧
      (∀ c i j, i ≠ j → (Slot.item c i).Apart (.item c j)) ∧
      ∀ e, Quiet env m fuel e →
        (∀ slot n, (meaning env fuel).resolve e m = .ok slot n → n = m ∧ slot.Live m) ∧
        (∀ w n, (meaning env fuel).eval e m = .ok w n ↔ readAt env fuel e m = .ok w n) ∧
        (Sited env m fuel e → (meaning env fuel).eval e m = readAt env fuel e m) :=
  ⟨fun _ _ _ h => stores_of_writeSlot h, fun _ _ _ _ h => eq_of_writeSlot_error h,
    fun owner _ _ h => Slot.apart_char owner h, fun c _ _ h => Slot.apart_item c h,
    fun _ h => ⟨fun _ _ hr => live_of_quiet h hr, (agrees_of_quiet h).value, (agrees_of_quiet h).error⟩⟩

/-- An entry function without statements. -/
def emptyMain : Instrumented.Function where
  name := "main"
  params := []
  body := []
  line := 1
  endLine := 1

def emptyEnv : Env where
  program := { functions := [emptyMain], driver := [], degradations := [] }
  config := .default

/-- Evaluating `u["a"]` fails because there is no `u`, and resolving it because `"a"` is no integer. -/
theorem not_eval_eq_readAt :
    ¬ ∀ (env : Env) (fuel : Nat) (t : Task) (m : Machine) (e : Expr), Reached env fuel t m →
      Quiet env m fuel e → (meaning env fuel).eval e m = readAt env fuel e m := by
  intro h
  let start : Machine := { Machine.initial with line := emptyMain.line }
  let e : Expr := .index (.var "u") (.str "a")
  have hreached : Reached emptyEnv 2 (.call emptyMain.name []) start := reached_entry rfl rfl rfl 2
  have hsame := h emptyEnv 2 _ start e hreached ⟨trivial, .str "a", rfl⟩
  have hundefined : (meaning emptyEnv 2).eval e start =
      .error (.failed ⟨.undefinedVariable "u", 1⟩) start := rfl
  have htype : readAt emptyEnv 2 e start =
      .error (.failed ⟨.typeMismatch "int index" "string", 1⟩) start := rfl
  rw [hundefined, htype] at hsame
  cases hsame

end Exec

end CallTrace
