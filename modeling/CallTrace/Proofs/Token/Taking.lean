import CallTrace.Proofs.Token.Splitting

/-! # Tokens that are taken from a list

* `Takes ts ws us`: the tokens `ws` are taken from `ts`, and `us` are left. Half of a `>>` may be taken.
* `braceDepth`: how many braces are open behind some tokens, unless one closes none.
* `usingClosed`: between `using` and the next semicolon there is no brace.
* `Uses k d d' ts us`: what readers do to their tokens. Reading goes from `ts` to `us`, takes `k` tokens or more,
  never takes the end of the file, and takes the number of open braces from `d` to `d'`.
-/

namespace CallTrace
set_option autoImplicit false

/-- The tokens `ws` are taken from the first list, and the last list is left. -/
inductive Takes : List Token → List Token → List Token → Prop where
  | nil (ts : List Token) : Takes ts [] ts
  | cons (t : Token) {ts ws us : List Token} (h : Takes ts ws us) : Takes (t :: ts) (t :: ws) us
  | half (p : Pos) {ts ws us : List Token} (h : Takes (⟨.mark .gt, p.right 1⟩ :: ts) ws us) :
      Takes (⟨.mark .gtGt, p⟩ :: ts) (⟨.mark .gt, p⟩ :: ws) us

namespace Takes

variable {ts us vs ws xs : List Token}

theorem trans (h : Takes ts ws us) (h' : Takes us xs vs) : Takes ts (ws ++ xs) vs := by
  induction h with
  | nil ts => exact h'
  | cons t h ih => exact .cons t (ih h')
  | half p h ih => exact .half p (ih h')

theorem all (ws us : List Token) : Takes (ws ++ us) ws us := by
  induction ws with
  | nil => exact .nil us
  | cons t ws ih => exact .cons t ih

/-- What is taken and what is left are the tokens, with some `>>` split. -/
theorem splits (h : Takes ts ws us) : Splits ts (ws ++ us) := by
  induction h with
  | nil ts => exact .refl ts
  | cons t h ih => exact .cons t ih
  | @half p ts ws us h ih =>
    generalize hxs : ws ++ us = xs at ih
    cases ih with
    | cons _ ih =>
      rw [List.cons_append, hxs]
      exact .split p ih

theorem length_le (h : Takes ts ws us) : us.length ≤ ts.length := by
  induction h with
  | nil ts => exact Nat.le_refl _
  | cons t h ih => exact Nat.le_succ_of_le ih
  | half p h ih => exact ih

/-- Whatever is taken, the end of the file is left. -/
theorem eof_left {p : Pos} (h : Takes (⟨.eof, p⟩ :: ts) ws (⟨.eof, p⟩ :: ts)) : ws = [] := by
  cases h with
  | nil => rfl
  | cons _ h => exact absurd h.length_le (Nat.not_succ_le_self _)

theorem eq_of_nil (h : Takes ts [] us) : us = ts := by
  cases h
  rfl

/-- Unless what is left starts with a `>`, it is what the tokens end with. -/
theorem eq_append (h : Takes ts ws us) (hus : ∀ t ∈ us.head?, t.kind ≠ .mark .gt) :
    ∃ xs, ts = xs ++ us ∧ Splits xs ws := by
  induction h with
  | nil ts => exact ⟨[], rfl, .nil⟩
  | cons t h ih =>
    obtain ⟨xs, rfl, hxs⟩ := ih hus
    exact ⟨t :: xs, rfl, .cons t hxs⟩
  | @half p ts ws us h ih =>
    obtain ⟨xs, hts, hxs⟩ := ih hus
    cases xs with
    | nil =>
      obtain rfl : _ = us := hts
      exact absurd rfl (hus _ rfl)
    | cons x xs =>
      obtain ⟨rfl, rfl⟩ := List.cons.inj hts
      cases hxs with
      | cons _ hxs => exact ⟨_ :: xs, rfl, .split p hxs⟩

end Takes

/-! ## Braces -/

/-- The number of open braces behind one more token. -/
def braceStep (d : Nat) : Token.Kind → Option Nat
  | .mark .lbrace => some (d + 1)
  | .mark .rbrace => match d with
    | 0 => none
    | d + 1 => some d
  | _ => some d

/-- The number of open braces behind some tokens, unless one of them closes none. -/
def braceDepth : Nat → List Token → Option Nat
  | d, [] => some d
  | d, t :: ts => (braceStep d t.kind).bind (braceDepth · ts)

theorem braceDepth_append (d : Nat) (ts us : List Token) :
    braceDepth d (ts ++ us) = (braceDepth d ts).bind (braceDepth · us) := by
  induction ts generalizing d with
  | nil => rfl
  | cons t ts ih =>
    simp only [List.cons_append, braceDepth, Option.bind_assoc, ih]

/-- Splitting `>>` changes no braces. -/
theorem Splits.braceDepth_eq {ts us : List Token} (h : Splits ts us) (d : Nat) :
    braceDepth d us = braceDepth d ts := by
  induction h generalizing d with
  | nil => rfl
  | cons t h ih => simp only [braceDepth, ih]
  | split p h ih => exact ih d

def isBrace : Token.Kind → Bool
  | .mark m => m == .lbrace || m == .rbrace
  | _ => false

theorem braceStep_of_not_isBrace {k : Token.Kind} (h : isBrace k = false) (d : Nat) : braceStep d k = some d := by
  cases k with
  | mark m => cases m <;> first | rfl | cases h
  | _ => rfl

/-- Whether reading is between `using` and its semicolon behind one more token. A brace ends that too. -/
def usingStep (u : Bool) : Token.Kind → Bool
  | .word .usingWord => true
  | .mark m => if m == .semicolon || m == .lbrace || m == .rbrace then false else u
  | _ => u

/-- No brace stands between `using` and the next semicolon; `u` says that a `using` stands before the tokens. -/
def usingClosed (u : Bool) : List Token → Bool
  | [] => true
  | t :: ts => !(u && isBrace t.kind) && usingClosed (usingStep u t.kind) ts

theorem usingStep_false {k : Token.Kind} (h : k ≠ .word .usingWord) : usingStep false k = false := by
  cases k with
  | word w => cases w <;> first | rfl | exact absurd rfl h
  | mark m => cases m <;> rfl
  | _ => rfl

theorem usingStep_true {k : Token.Kind} (hbrace : isBrace k = false) (hsemicolon : k ≠ .mark .semicolon) :
    usingStep true k = true := by
  cases k with
  | word w => cases w <;> rfl
  | mark m => cases m <;> first | rfl | exact absurd rfl hsemicolon | exact absurd hbrace (by decide)
  | _ => rfl

theorem usingStep_le (u : Bool) (k : Token.Kind) : usingStep false k = true → usingStep u k = true := by
  intro h
  cases k with
  | word w => cases w <;> first | rfl | cases h
  | mark m => cases m <;> cases h
  | _ => cases h

theorem usingClosed_of_le {u v : Bool} (huv : v = true → u = true) {ts : List Token} (h : usingClosed u ts) :
    usingClosed v ts := by
  induction ts generalizing u v with
  | nil => rfl
  | cons t ts ih =>
    rw [usingClosed, Bool.and_eq_true] at h ⊢
    refine ⟨?_, ih (u := usingStep u t.kind) ?_ h.2⟩
    · cases v with
      | false => rfl
      | true => rw [huv rfl] at h; exact h.1
    · cases v with
      | false => exact usingStep_le u t.kind
      | true => rw [huv rfl]; exact id

/-- Splitting `>>` changes no `using`. -/
theorem Splits.usingClosed_eq {ts us : List Token} (h : Splits ts us) (u : Bool) :
    usingClosed u us = usingClosed u ts := by
  induction h generalizing u with
  | nil => rfl
  | cons t h ih => simp only [usingClosed, ih]
  | split p h ih => cases u <;> exact ih _

theorem usingClosed_left {u : Bool} {ts us : List Token} (h : usingClosed u (ts ++ us)) : usingClosed u ts := by
  induction ts generalizing u with
  | nil => rfl
  | cons t ts ih =>
    rw [List.cons_append, usingClosed, Bool.and_eq_true] at h
    rw [usingClosed, Bool.and_eq_true]
    exact ⟨h.1, ih h.2⟩

theorem usingClosed_right {u : Bool} {ts us : List Token} (h : usingClosed u (ts ++ us)) : usingClosed false us := by
  induction ts generalizing u with
  | nil => exact usingClosed_of_le (v := false) nofun h
  | cons t ts ih =>
    rw [List.cons_append, usingClosed, Bool.and_eq_true] at h
    exact ih h.2

/-! ## What readers do to their tokens -/

/-- The end of the file comes next. -/
def AtEof (ts : List Token) : Prop := ∃ t us, ts = t :: us ∧ t.kind = .eof

/-- From `ts` to `us` at least `k` tokens are taken, none of which is the end of the file, and the number of open
braces goes from `d` to `d'`, unless a `using` reaches over a brace or the file ends. -/
structure Uses (k d d' : Nat) (ts us : List Token) : Prop where
  shorter : us.length + k ≤ ts.length
  takes : ∃ ws, Takes ts ws us ∧ (∀ t ∈ ws, t.kind ≠ .eof) ∧
    (usingClosed false ws → AtEof us ∨ braceDepth d ws = some d')

namespace Uses

variable {k j d d' d'' : Nat} {ts us vs : List Token}

theorem refl (d : Nat) (ts : List Token) : Uses 0 d d ts ts :=
  ⟨Nat.le_refl _, [], .nil ts, nofun, fun _ => .inr rfl⟩

theorem trans (h : Uses k d d' ts us) (h' : Uses j d' d'' us vs) : Uses (k + j) d d'' ts vs := by
  obtain ⟨hlen, ws, hws, heof, hdepth⟩ := h
  obtain ⟨hlen', xs, hxs, heof', hdepth'⟩ := h'
  refine ⟨by omega, ws ++ xs, hws.trans hxs, ?_, fun hclosed => ?_⟩
  · intro t ht
    exact (List.mem_append.mp ht).elim (heof t) (heof' t)
  · rcases hdepth (usingClosed_left hclosed) with ⟨t, us, rfl, ht⟩ | hd
    · -- behind the end of the file nothing is taken
      cases hxs with
      | nil => exact .inl ⟨t, us, rfl, ht⟩
      | cons _ hxs => exact absurd ht (heof' _ (List.mem_cons_self ..))
      | half _ hxs => cases ht
    · refine (hdepth' (usingClosed_right hclosed)).imp_right fun hd' => ?_
      rw [braceDepth_append, hd]
      exact hd'

theorem mono (h : Uses k d d' ts us) (hj : j ≤ k) : Uses j d d' ts us :=
  ⟨by have := h.shorter; omega, h.takes⟩

/-- A single token is taken. -/
theorem one {t : Token} (ht : t.kind ≠ .eof) (hd : braceStep d t.kind = some d') (ts : List Token) :
    Uses 1 d d' (t :: ts) ts := by
  refine ⟨Nat.le_refl _, [t], .cons t (.nil ts), fun u hu => List.eq_of_mem_singleton hu ▸ ht, fun _ => .inr ?_⟩
  rw [braceDepth, hd]
  rfl

end Uses

end CallTrace
