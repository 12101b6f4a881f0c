import CallTrace.Token

/-! # Tokens with split marks

Two vector types that end together may end in `>>`, which counts as two `>`.

* `Splits ts us`: `us` are the tokens `ts` with some `>>` split into two `>`.
* `Spells ts ks`: with some `>>` split, the tokens are of the kinds `ks`.
* `Spells.of_append`: what is spelled in two parts stands in two parts, unless a `>` ends the first part and
  another one starts the second.
-/

namespace CallTrace
set_option autoImplicit false

/-- The second list is the first one with some `>>` split into two `>`. -/
inductive Splits : List Token → List Token → Prop where
  | nil : Splits [] []
  | cons (t : Token) {ts us : List Token} (h : Splits ts us) : Splits (t :: ts) (t :: us)
  | split (p : Pos) {ts us : List Token} (h : Splits ts us) :
      Splits (⟨.mark .gtGt, p⟩ :: ts) (⟨.mark .gt, p⟩ :: ⟨.mark .gt, p.right 1⟩ :: us)

namespace Splits

variable {ts us vs ws : List Token}

@[refl] theorem refl : (ts : List Token) → Splits ts ts
  | [] => .nil
  | t :: ts => .cons t (refl ts)

theorem append (h : Splits ts us) (h' : Splits vs ws) : Splits (ts ++ vs) (us ++ ws) := by
  induction h with
  | nil => exact h'
  | cons t h ih => exact .cons t ih
  | split p h ih => exact .split p ih

theorem eq_nil (h : Splits ts []) : ts = [] := by
  cases h
  rfl

/-- What holds of all kinds of the second list holds of those of the first one, if it holds of `>>` when of `>`. -/
theorem forall_kind {P : Token.Kind → Prop} (hP : P (.mark .gt) → P (.mark .gtGt)) (h : Splits ts us)
    (hus : ∀ t ∈ us, P t.kind) : ∀ t ∈ ts, P t.kind := by
  induction h with
  | nil => exact nofun
  | cons t h ih =>
    obtain ⟨ht, hus⟩ := List.forall_mem_cons.mp hus
    exact List.forall_mem_cons.mpr ⟨ht, ih hus⟩
  | split p h ih =>
    obtain ⟨ht, hus⟩ := List.forall_mem_cons.mp hus
    exact List.forall_mem_cons.mpr ⟨hP ht, ih (List.forall_mem_cons.mp hus).2⟩

/-- No `>` ends the first list where another one starts the second. -/
def Apart (ks ls : List Token.Kind) : Prop :=
  (∀ k ∈ ks.getLast?, k ≠ .mark .gt) ∨ ∀ k ∈ ls.head?, k ≠ .mark .gt

theorem Apart.tail {k : Token.Kind} {ks ls : List Token.Kind} (h : Apart (k :: ks) ls) : Apart ks ls := by
  refine h.imp_left fun hlast j hj => hlast j ?_
  rw [List.getLast?_cons, Option.mem_def.mp hj]
  rfl

/-- Tokens that are split into two parts are these parts themselves. -/
theorem of_append (h : Splits ts (us ++ vs)) (hapart : Apart (us.map (·.kind)) (vs.map (·.kind))) :
    ∃ as bs, ts = as ++ bs ∧ Splits as us ∧ Splits bs vs := by
  generalize hws : us ++ vs = ws at h
  induction h generalizing us with
  | nil =>
    obtain ⟨rfl, rfl⟩ := List.append_eq_nil_iff.mp hws
    exact ⟨[], [], rfl, .nil, .nil⟩
  | @cons t ts ws h ih =>
    cases us with
    | nil =>
      obtain rfl : vs = t :: ws := hws
      exact ⟨[], t :: ts, rfl, .nil, .cons t h⟩
    | cons u us =>
      obtain ⟨rfl, rfl⟩ := List.cons.inj hws
      obtain ⟨as, bs, rfl, has, hbs⟩ := ih hapart.tail rfl
      exact ⟨u :: as, bs, rfl, .cons u has, hbs⟩
  | @split p ts ws h ih =>
    match us with
    | [] =>
      obtain rfl : vs = _ := hws
      exact ⟨[], _, rfl, .nil, .split p h⟩
    | [u] =>
      obtain ⟨rfl, rfl⟩ := List.cons.inj hws
      rcases hapart with hlast | hhead
      · exact absurd rfl (hlast _ rfl)
      · exact absurd rfl (hhead _ rfl)
    | u :: v :: us =>
      obtain ⟨rfl, hmore⟩ := List.cons.inj hws
      obtain ⟨rfl, rfl⟩ := List.cons.inj hmore
      obtain ⟨as, bs, rfl, has, hbs⟩ := ih hapart.tail.tail rfl
      exact ⟨_ :: as, bs, rfl, .split p has, hbs⟩

end Splits

/-! ## Spelled kinds -/

/-- With some `>>` split into two `>`, the tokens are of the kinds `ks`. -/
def Spells (ts : List Token) (ks : List Token.Kind) : Prop := ∃ us, Splits ts us ∧ us.map (·.kind) = ks

namespace Spells

variable {ts : List Token} {ks ls : List Token.Kind} {k : Token.Kind}

theorem of_map (h : ts.map (·.kind) = ks) : Spells ts ks := ⟨ts, .refl ts, h⟩

theorem eq_nil (h : Spells ts []) : ts = [] := by
  obtain ⟨us, hs, hus⟩ := h
  obtain rfl := List.map_eq_nil_iff.mp hus
  exact hs.eq_nil

theorem of_append (h : Spells ts (ks ++ ls)) (hapart : Splits.Apart ks ls) :
    ∃ as bs, ts = as ++ bs ∧ Spells as ks ∧ Spells bs ls := by
  obtain ⟨us, hs, hus⟩ := h
  obtain ⟨us, vs, rfl, rfl, rfl⟩ := List.map_eq_append_iff.mp hus
  obtain ⟨as, bs, rfl, has, hbs⟩ := hs.of_append hapart
  exact ⟨as, bs, rfl, ⟨us, has, rfl⟩, ⟨vs, hbs, rfl⟩⟩

/-- A token that is no `>` is spelled by itself. -/
theorem of_cons (h : Spells ts (k :: ks)) (hk : k ≠ .mark .gt) :
    ∃ p us, ts = ⟨k, p⟩ :: us ∧ Spells us ks := by
  obtain ⟨us, hs, hus⟩ := h
  obtain ⟨⟨_, p⟩, us, rfl, rfl, hmap⟩ := List.map_eq_cons_iff.mp hus
  cases hs with
  | cons _ hs => exact ⟨p, _, rfl, us, hs, hmap⟩
  | split p hs => exact absurd rfl hk

/-- A token, which may be `>`, is spelled by itself before one that is no `>`. -/
theorem of_cons_of_head (h : Spells ts (k :: ks)) (hks : ∀ j ∈ ks.head?, j ≠ .mark .gt) :
    ∃ p us, ts = ⟨k, p⟩ :: us ∧ Spells us ks := by
  obtain ⟨us, hs, hus⟩ := h
  obtain ⟨⟨_, p⟩, us, rfl, rfl, rfl⟩ := List.map_eq_cons_iff.mp hus
  cases hs with
  | cons _ hs => exact ⟨p, _, rfl, us, hs, rfl⟩
  | split p hs => exact absurd rfl (hks _ rfl)

/-- What is spelled around a token that is no `>`. -/
theorem of_append_cons (h : Spells ts (ks ++ k :: ls)) (hk : k ≠ .mark .gt) :
    ∃ as p bs, ts = as ++ ⟨k, p⟩ :: bs ∧ Spells as ks ∧ Spells bs ls := by
  have hhead : ∀ j ∈ (k :: ls).head?, j ≠ .mark .gt := by
    rintro j hj
    obtain rfl := Option.some.inj hj
    exact hk
  obtain ⟨as, bs, rfl, has, hbs⟩ := h.of_append (.inr hhead)
  obtain ⟨p, cs, rfl, hcs⟩ := hbs.of_cons hk
  exact ⟨as, p, cs, rfl, has, hcs⟩

theorem of_concat (h : Spells ts (ks ++ [k])) (hk : k ≠ .mark .gt) :
    ∃ as p, ts = as ++ [⟨k, p⟩] ∧ Spells as ks := by
  obtain ⟨as, p, bs, rfl, has, hbs⟩ := h.of_append_cons hk
  obtain rfl := hbs.eq_nil
  exact ⟨as, p, rfl, has⟩

end Spells

end CallTrace
