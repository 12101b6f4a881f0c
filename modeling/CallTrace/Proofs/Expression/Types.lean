import CallTrace.Proofs.Expression.Reading
import CallTrace.Proofs.Token.Splitting

/-! # Printing and reading types

* `Ty.print`: the tokens of a type, with `const` before it and the reference mark after it.
* `Parser.ty_spelled`: the tokens of a type are read as the type, whatever of its closing marks are joined to
  `>>`. Marks that close the vectors around the type may be joined with its own, so the statement speaks about
  the type together with the `>` that come after it.
* `Parser.vectorElement_spelled`: the tokens of an element type between `<` and `>`.
-/

namespace CallTrace.Surface
set_option autoImplicit false

/-! ## Printing -/

/-- The word for a type without components. -/
def scalarWord : Scalar → Keyword
  | .void => .void | .int => .int | .long => .long | .bool => .bool | .char => .char
  | .double => .double | .float => .float | .string => .string | .auto => .auto

namespace Ty

/-- A base type with the marks around it. -/
def dressed (isConst isRef : Bool) (base : List Token.Kind) : List Token.Kind :=
  (if isConst then [.word .const] else []) ++ (base ++ if isRef then [.mark .amp] else [])

/-- The tokens of a type. -/
def print : Ty → List Token.Kind
  | .scalar s isConst isRef => dressed isConst isRef [.word (scalarWord s)]
  | .vector element isConst isRef =>
    dressed isConst isRef (.word .vector :: .mark .lt :: (print element ++ [.mark .gt]))

/-- A type starts with one of its words. -/
theorem print_head (t : Ty) : ∃ k ks, t.print = .word k :: ks ∧ k.startsType := by
  cases t with
  | scalar s isConst isRef =>
    cases isConst with
    | true => exact ⟨.const, _, rfl, rfl⟩
    | false => exact ⟨scalarWord s, _, rfl, by cases s <;> rfl⟩
  | vector element isConst isRef =>
    cases isConst with
    | true => exact ⟨.const, _, rfl, rfl⟩
    | false => exact ⟨.vector, _, rfl, rfl⟩

end Ty

namespace Parser

/-! ## Steps of reading a type -/

/-- The tokens do not continue a type: they start with none of its words and marks. -/
def EndsType (ts : List Token) : Prop :=
  ∀ t ∈ ts.head?, t.kind ≠ .word .const ∧ t.kind ≠ .mark .amp ∧ t.kind ≠ .word .long ∧ t.kind ≠ .word .int

theorem EndsType.of_cons {k : Token.Kind} (h : k ≠ .word .const ∧ k ≠ .mark .amp ∧ k ≠ .word .long ∧ k ≠ .word .int)
    (p : Pos) (ts : List Token) : EndsType (⟨k, p⟩ :: ts) := by
  intro t ht
  obtain rfl := Option.some.inj ht
  exact h

theorem acceptWord_eq (k : Keyword) (p : Pos) (ts : List Token) :
    acceptWord k (⟨.word k, p⟩ :: ts) = .ok (some p, ts) := by
  simp [acceptWord]

theorem acceptWord_none {k : Keyword} {ts : List Token} (h : ∀ t ∈ ts.head?, t.kind ≠ .word k) :
    acceptWord k ts = .ok (none, ts) := by
  obtain _ | ⟨⟨j, p⟩, us⟩ := ts
  · rfl
  cases j with
  | word j =>
    have hne : j ≠ k := by
      rintro rfl
      exact h _ rfl rfl
    simp [acceptWord, hne]
  | _ => rfl

theorem accept_none_of_head {m : Mark} {ts : List Token} (h : ∀ t ∈ ts.head?, t.kind ≠ .mark m) :
    accept m ts = .ok (none, ts) := by
  obtain _ | ⟨⟨j, p⟩, us⟩ := ts
  · rfl
  cases j with
  | mark j =>
    have hne : j ≠ m := by
      rintro rfl
      exact h _ rfl rfl
    simp [accept, hne]
  | _ => rfl

theorem dropLong_eq {ts : List Token} (h : ∀ t ∈ ts.head?, t.kind ≠ .word .long ∧ t.kind ≠ .word .int) :
    dropLong ts = ts := by
  unfold dropLong
  split
  · exact absurd rfl (h _ rfl).1
  · exact absurd rfl (h _ rfl).2
  · rfl

/-- The reference mark of a type, if it has one. -/
def Dress (isRef : Bool) (ds : List Token) : Prop := ds.map (·.kind) = if isRef then [.mark .amp] else []

theorem Dress.cases {isRef : Bool} {ds : List Token} (h : Dress isRef ds) :
    (isRef = false ∧ ds = []) ∨ ∃ p, isRef = true ∧ ds = [⟨.mark .amp, p⟩] := by
  cases isRef with
  | false => exact .inl ⟨rfl, List.map_eq_nil_iff.mp h⟩
  | true =>
    obtain ⟨⟨k, p⟩, us, rfl, hk, hus⟩ := List.map_eq_cons_iff.mp h
    obtain rfl := List.map_eq_nil_iff.mp hus
    obtain rfl : k = .mark .amp := hk
    exact .inr ⟨p, rfl, rfl⟩

theorem tyMarks_eq {isRef : Bool} {ds rest : List Token} (hds : Dress isRef ds) (hrest : EndsType rest) :
    tyMarks (ds ++ rest) = .ok ((false, isRef), rest) := by
  have hconst : acceptWord .const (ds ++ rest) = .ok (none, ds ++ rest) := by
    refine acceptWord_none fun t ht => ?_
    rcases hds.cases with ⟨-, rfl⟩ | ⟨p, -, rfl⟩
    · exact (hrest t ht).1
    · obtain rfl := Option.some.inj ht
      nofun
  rw [tyMarks, bind_eq hconst]
  rcases hds.cases with ⟨rfl, rfl⟩ | ⟨p, rfl, rfl⟩
  · rw [List.nil_append, bind_eq (accept_none_of_head fun t ht => (hrest t ht).2.1)]
    rfl
  · rw [List.singleton_append, bind_eq (accept_eq .amp p rest)]
    rfl

/-- A type after the `const` before it. -/
def baseTy (n : Nat) (before : Bool) : Parser Ty := do
  let t ← peek
  match t.kind with
  | .word .vector =>
    advance
    let element ← vectorElement n
    let (after, isRef) ← tyMarks
    return .vector element (before || after) isRef
  | .word k =>
    match scalar? k with
    | some s =>
      advance
      if s = .long then modify dropLong
      let (after, isRef) ← tyMarks
      return .scalar s (before || after) isRef
    | none => throw (.missingType t.kind)
  | _ => throw (.missingType t.kind)

theorem ty_succ (n : Nat) :
    ty (n + 1) = acceptWord .const >>= fun before => baseTy n before.isSome := by
  rw [ty]
  rfl

theorem ty_const (n : Nat) (p : Pos) (ts : List Token) :
    ty (n + 1) (⟨.word .const, p⟩ :: ts) = baseTy n true ts := by
  rw [ty_succ, bind_eq (acceptWord_eq .const p ts)]
  rfl

theorem ty_base (n : Nat) {ts : List Token} (h : ∀ t ∈ ts.head?, t.kind ≠ .word .const) :
    ty (n + 1) ts = baseTy n false ts := by
  rw [ty_succ, bind_eq (acceptWord_none h)]
  rfl

theorem baseTy_scalar (n : Nat) (s : Scalar) (before : Bool) {isRef : Bool} (p : Pos) {ds rest : List Token}
    (hds : Dress isRef ds) (hrest : EndsType rest) :
    baseTy n before (⟨.word (scalarWord s), p⟩ :: (ds ++ rest)) = .ok (.scalar s before isRef, rest) := by
  have hmarks := tyMarks_eq hds hrest
  have hlong : dropLong (ds ++ rest) = ds ++ rest := by
    refine dropLong_eq fun t ht => ?_
    rcases hds.cases with ⟨-, rfl⟩ | ⟨q, -, rfl⟩
    · exact (hrest t ht).2.2
    · obtain rfl := Option.some.inj ht
      exact ⟨nofun, nofun⟩
  rw [baseTy, bind_eq (p := peek) rfl]
  cases s
  case long =>
    dsimp only [next, scalarWord, scalar?]
    rw [bind_eq (p := advance) rfl]
    dsimp only [Parser.rest]
    rw [if_pos rfl, bind_eq (p := modify dropLong) rfl, hlong, bind_eq hmarks,
      Bool.or_false]
    rfl
  all_goals
    dsimp only [next, scalarWord, scalar?]
    rw [bind_eq (p := advance) rfl]
    dsimp only [Parser.rest]
    rw [if_neg (by decide)]
    show (tyMarks >>= _) _ = _
    rw [bind_eq hmarks, Bool.or_false]
    rfl

theorem baseTy_vector {n : Nat} {element : Ty} (before : Bool) {isRef : Bool} (p : Pos) {ts ds rest : List Token}
    (helement : vectorElement n ts = .ok (element, ds ++ rest)) (hds : Dress isRef ds) (hrest : EndsType rest) :
    baseTy n before (⟨.word .vector, p⟩ :: ts) = .ok (.vector element before isRef, rest) := by
  rw [baseTy, bind_eq (p := peek) rfl]
  dsimp only [next]
  rw [bind_eq (p := advance) rfl]
  dsimp only [Parser.rest]
  rw [bind_eq helement, bind_eq (tyMarks_eq hds hrest), Bool.or_false]
  rfl

/-! ## Types that are spelled -/

variable {ts us gs rest : List Token}

/-- The tokens that are spelled for a base type with the marks around it: they stand behind `const` if that is
one of the marks. -/
theorem of_dressed {isConst isRef : Bool} {base : List Token.Kind} (h : Splits ts (us ++ gs))
    (hus : us.map (·.kind) = Ty.dressed isConst isRef base) :
    ∃ bs ds vs, bs.map (·.kind) = base ∧ Dress isRef ds ∧ Splits vs (bs ++ (ds ++ gs)) ∧
      (isConst = false ∧ ts = vs ∨ ∃ p, isConst = true ∧ ts = ⟨.word .const, p⟩ :: vs) := by
  obtain ⟨cs, ws, rfl, hcs, hws⟩ := List.map_eq_append_iff.mp hus
  obtain ⟨bs, ds, rfl, hbs, hds⟩ := List.map_eq_append_iff.mp hws
  rw [List.append_assoc, List.append_assoc] at h
  cases isConst with
  | false =>
    obtain rfl := List.map_eq_nil_iff.mp hcs
    exact ⟨bs, ds, ts, hbs, hds, h, .inl ⟨rfl, rfl⟩⟩
  | true =>
    obtain ⟨⟨k, p⟩, cs, rfl, hk, hmore⟩ := List.map_eq_cons_iff.mp hcs
    obtain rfl := List.map_eq_nil_iff.mp hmore
    obtain rfl : k = .word .const := hk
    cases h with
    | cons _ h => exact ⟨bs, ds, _, hbs, hds, h, .inr ⟨p, rfl, rfl⟩⟩

theorem of_dress {isRef : Bool} {ds : List Token} (hds : Dress isRef ds) (h : Splits ts (ds ++ gs)) :
    ∃ hs, ts = ds ++ hs ∧ Splits hs gs := by
  rcases hds.cases with ⟨-, rfl⟩ | ⟨p, -, rfl⟩
  · exact ⟨ts, rfl, h⟩
  · cases h with
    | cons _ h => exact ⟨_, rfl, h⟩

/-- No closing mark continues a type. -/
theorem endsType_append {hs : List Token} (h : Splits hs gs) (hgs : ∀ g ∈ gs, g.kind = .mark .gt)
    (hrest : gs = [] → EndsType rest) : EndsType (hs ++ rest) := by
  cases h with
  | nil => exact hrest rfl
  | cons g h =>
    have hg : g.kind = .mark .gt := hgs g (List.mem_cons_self ..)
    exact .of_cons (k := g.kind) (by rw [hg]; exact ⟨nofun, nofun, nofun, nofun⟩) g.pos _
  | split p h => exact .of_cons (k := .mark .gtGt) ⟨nofun, nofun, nofun, nofun⟩ p _

/-- The first of some closing marks is consumed, also as a half of `>>`. -/
theorem closeAngle_splits {g : Token} {hs : List Token} (h : Splits hs (g :: gs)) (hg : g.kind = .mark .gt)
    (rest : List Token) : ∃ hs', Splits hs' gs ∧ closeAngle (hs ++ rest) = .ok ((), hs' ++ rest) := by
  obtain ⟨k, p⟩ := g
  obtain rfl : k = .mark .gt := hg
  cases h with
  | cons _ h => exact ⟨_, h, rfl⟩
  | split _ h => exact ⟨_, .cons _ h, rfl⟩

theorem ty_of_baseTy {n : Nat} {isConst : Bool} {vs : List Token} {r : Ty × List Token}
    (hts : isConst = false ∧ ts = vs ∨ ∃ p, isConst = true ∧ ts = ⟨.word .const, p⟩ :: vs)
    (hvs : ∀ t ∈ (vs ++ rest).head?, t.kind ≠ .word .const) (h : baseTy n isConst (vs ++ rest) = .ok r) :
    ty (n + 1) (ts ++ rest) = .ok r := by
  rcases hts with ⟨rfl, rfl⟩ | ⟨p, rfl, rfl⟩
  · rw [ty_base n hvs, h]
  · rw [List.cons_append, ty_const, h]

theorem length_le_of_const {isConst : Bool} {vs : List Token}
    (hts : isConst = false ∧ ts = vs ∨ ∃ p, isConst = true ∧ ts = ⟨.word .const, p⟩ :: vs) :
    vs.length ≤ ts.length := by
  rcases hts with ⟨_, rfl⟩ | ⟨p, _, rfl⟩ <;> simp

/-- What is spelled between `<` and `>`, before marks that close the vectors around it. -/
theorem vectorElement_of_ty {n : Nat} {e : Ty} {es ds : List Token} {g : Token} {isRef : Bool}
    (h : Splits ts (es ++ g :: (ds ++ gs))) (hds : Dress isRef ds) (hg : g.kind = .mark .gt)
    (hgs : ∀ g ∈ gs, g.kind = .mark .gt)
    (hty : ∀ {ts gs} rest, Splits ts (es ++ gs) → (∀ g ∈ gs, g.kind = .mark .gt) → (gs = [] → EndsType rest) →
      ts.length ≤ n → ∃ hs, Splits hs gs ∧ ty n (ts ++ rest) = .ok (e, hs ++ rest))
    (hn : ts.length ≤ n) (q : Pos) (rest : List Token) :
    ∃ hs, Splits hs gs ∧
      vectorElement (n + 1) (⟨.mark .lt, q⟩ :: (ts ++ rest)) = .ok (e, ds ++ (hs ++ rest)) := by
  rcases hds.cases with ⟨-, rfl⟩ | ⟨p, -, rfl⟩
  · have hall : ∀ k ∈ g :: gs, k.kind = .mark .gt := List.forall_mem_cons.mpr ⟨hg, hgs⟩
    obtain ⟨hs, hhs, hread⟩ := hty rest h hall (fun h => nomatch h) hn
    obtain ⟨hs', hhs', hclose⟩ := closeAngle_splits hhs hg rest
    refine ⟨hs', hhs', ?_⟩
    rw [vectorElement, bind_eq (expect_eq ..), bind_eq hread, bind_eq hclose]
    rfl
  · -- the reference mark keeps the closing mark of the element type apart from those after it
    have happend : Splits ts ((es ++ [g]) ++ ⟨.mark .amp, p⟩ :: gs) := by simpa using h
    obtain ⟨as, bs, rfl, has, hbs⟩ := happend.of_append
      (.inr (by rintro k hk; obtain rfl := Option.some.inj hk; nofun))
    cases hbs with
    | @cons _ hs _ hhs =>
      rw [List.length_append] at hn
      obtain ⟨hs', hhs', hread⟩ := hty (⟨.mark .amp, p⟩ :: (hs ++ rest)) has
        (fun k hk => List.eq_of_mem_singleton hk ▸ hg) (fun h => nomatch h) (by omega)
      obtain ⟨hs'', hnil, hclose⟩ := closeAngle_splits hhs' hg (⟨.mark .amp, p⟩ :: (hs ++ rest))
      obtain rfl := hnil.eq_nil
      refine ⟨hs, hhs, ?_⟩
      rw [List.append_assoc, List.cons_append, vectorElement, bind_eq (expect_eq ..), bind_eq hread, bind_eq hclose]
      rfl

/-- What is spelled for a type, before marks that close the vectors around it, is read as the type. -/
theorem ty_spelled (t : Ty) (rest : List Token) {n : Nat} (h : Splits ts (us ++ gs)) (hus : us.map (·.kind) = t.print)
    (hgs : ∀ g ∈ gs, g.kind = .mark .gt) (hrest : gs = [] → EndsType rest) (hn : ts.length ≤ n) :
    ∃ hs, Splits hs gs ∧ ty n (ts ++ rest) = .ok (t, hs ++ rest) := by
  induction t generalizing n ts us gs rest with
  | scalar s isConst isRef =>
    obtain ⟨bs, ds, vs, hbs, hds, hvs, hts⟩ := of_dressed h hus
    obtain ⟨⟨k, p⟩, bs, rfl, hk, hnil⟩ := List.map_eq_cons_iff.mp hbs
    obtain rfl := List.map_eq_nil_iff.mp hnil
    obtain rfl : k = .word (scalarWord s) := hk
    cases hvs with
    | cons _ hvs =>
      obtain ⟨hs, rfl, hhs⟩ := of_dress hds hvs
      have hlen := length_le_of_const hts
      rw [List.length_cons] at hlen
      obtain ⟨n, rfl⟩ : ∃ m, n = m + 1 := ⟨n - 1, by omega⟩
      refine ⟨hs, hhs, ty_of_baseTy hts ?_ ?_⟩
      · intro t ht
        obtain rfl := Option.some.inj ht
        cases s <;> nofun
      · rw [List.cons_append, List.append_assoc]
        exact baseTy_scalar n s isConst p hds (endsType_append hhs hgs hrest)
  | vector e isConst isRef ih =>
    obtain ⟨bs, ds, vs, hbs, hds, hvs, hts⟩ := of_dressed h hus
    obtain ⟨⟨k, p⟩, bs, rfl, hk, hafter⟩ := List.map_eq_cons_iff.mp hbs
    obtain rfl : k = .word .vector := hk
    obtain ⟨⟨k, q⟩, bs, rfl, hk, hinner⟩ := List.map_eq_cons_iff.mp hafter
    obtain rfl : k = .mark .lt := hk
    obtain ⟨es, cs, rfl, hes, hcs⟩ := List.map_eq_append_iff.mp hinner
    obtain ⟨g, cs, rfl, hg, hnil⟩ := List.map_eq_cons_iff.mp hcs
    obtain rfl := List.map_eq_nil_iff.mp hnil
    cases hvs with
    | cons _ hvs =>
    cases hvs with
    | @cons _ ws _ hvs =>
    have hws : Splits ws (es ++ g :: (ds ++ gs)) := by simpa using hvs
    have hlen := length_le_of_const hts
    rw [List.length_cons, List.length_cons] at hlen
    obtain ⟨n, rfl⟩ : ∃ m, n = m + 2 := ⟨n - 2, by omega⟩
    have hle : ws.length ≤ n := by omega
    obtain ⟨hs, hhs, helement⟩ := vectorElement_of_ty hws hds hg hgs
      (fun rest h hgs hrest hn => ih rest h hes hgs hrest hn) hle q rest
    refine ⟨hs, hhs, ty_of_baseTy hts ?_ ?_⟩
    · intro t ht
      obtain rfl := Option.some.inj ht
      nofun
    · exact baseTy_vector isConst p helement hds (endsType_append hhs hgs hrest)

/-- What is spelled for a type is read as the type. -/
theorem ty_eq {t : Ty} (h : Spells ts t.print) (hrest : EndsType rest) {n : Nat} (hn : ts.length ≤ n) :
    ty n (ts ++ rest) = .ok (t, rest) := by
  obtain ⟨us, hs, hus⟩ := h
  have happend : Splits ts (us ++ []) := by simpa using hs
  obtain ⟨hs', hnil, hread⟩ := ty_spelled t rest happend hus nofun (fun _ => hrest) hn
  obtain rfl := hnil.eq_nil
  exact hread

/-- What is spelled for an element type up to its closing mark is read as the type. -/
theorem vectorElement_eq {t : Ty} (h : Spells ts (t.print ++ [.mark .gt])) {n : Nat} (hn : ts.length < n) (q : Pos) :
    vectorElement n (⟨.mark .lt, q⟩ :: (ts ++ rest)) = .ok (t, rest) := by
  obtain ⟨us, hs, hus⟩ := h
  obtain ⟨es, cs, rfl, hes, hcs⟩ := List.map_eq_append_iff.mp hus
  obtain ⟨g, cs, rfl, hg, hnil⟩ := List.map_eq_cons_iff.mp hcs
  obtain rfl := List.map_eq_nil_iff.mp hnil
  obtain ⟨n, rfl⟩ : ∃ m, n = m + 1 := ⟨n - 1, by omega⟩
  have hbare : Dress false [] := rfl
  have happend : Splits ts (es ++ g :: ([] ++ [])) := hs
  obtain ⟨hs', hnil, hread⟩ := vectorElement_of_ty happend hbare hg nofun
    (fun rest h hgs hrest hn => ty_spelled t rest h hes hgs hrest hn) (Nat.le_of_lt_succ hn) q rest
  obtain rfl := hnil.eq_nil
  exact hread

end Parser

end CallTrace.Surface
