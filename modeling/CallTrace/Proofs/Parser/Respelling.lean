import CallTrace.Proofs.Parser.Programs
import CallTrace.Proofs.Parser.Walks

/-! # Tokens that are split in place

A vector type that ends in half of a `>>` may be read with the token split in place. A reader that goes back then
finds two tokens where there was one.

* `Parser.Respelt ts us`: such readings have turned the tokens `ts` into `us`.
* `Parser.Respelt.twin`: from the tokens as they are then everything is read as from those before.
* `Parser.ReadAlike lines ts us`: all that may be tried again from `us` comes out as from `ts`.
-/

namespace CallTrace.Surface
set_option autoImplicit false

namespace Twin

variable {w : Tails} {σ : Spot} {ts us vs : List Token}

/-- One more `>>` is split where a vector type may end. -/
theorem split_right (hinner : w.inner = false) (hsplits : w.splits) (hright : w.right = []) {as us : List Token} {p : Pos}
    (h : Twin w σ ts (as ++ ⟨.mark .gtGt, p⟩ :: us)) {e : Nat} (hphase : σ.phase.run as = .base (e + 1)) :
    Twin w σ ts (as ++ ⟨.mark .gt, p⟩ :: ⟨.mark .gt, p.right 1⟩ :: us) := by
  generalize hvs : as ++ ⟨.mark .gtGt, p⟩ :: us = vs at h
  induction h generalizing as with
  | @stop σ t hstops =>
    rw [hright] at hvs
    cases as with
    | nil =>
      obtain ⟨rfl, -⟩ := List.cons.inj hvs
      rcases hstops with hk | ⟨hk, -⟩
      · cases hk
      · rw [hinner] at hk
        cases hk
    | cons a as => exact absurd (List.cons.inj hvs).2 (by simp)
  | @cons σ t ts vs heof hallow h ih =>
    cases as with
    | nil =>
      obtain ⟨rfl, rfl⟩ := List.cons.inj hvs
      exact .split hsplits p ⟨e, hphase⟩ (h.of_phase_eq hinner rfl)
    | cons a as =>
      obtain ⟨rfl, rfl⟩ := List.cons.inj hvs
      exact .cons heof hallow (ih hphase rfl)
  | @split σ _ q ts vs hclosing h ih =>
    match as with
    | [] => exact nomatch (List.cons.inj hvs).1
    | [a] =>
      obtain ⟨-, hmore⟩ := List.cons.inj hvs
      exact nomatch (List.cons.inj hmore).1
    | a :: b :: as =>
      obtain ⟨rfl, hmore⟩ := List.cons.inj hvs
      obtain ⟨rfl, rfl⟩ := List.cons.inj hmore
      exact .split hsplits q hclosing (ih hphase rfl)

/-- Behind the end of the file there may be anything. -/
theorem append_right {splits : Bool} (h : Twin ⟨false, splits, [], []⟩ σ ts us) (zs : List Token) :
    Twin ⟨false, splits, [], zs⟩ σ ts (us ++ zs) := by
  induction h with
  | stop hstops => exact .stop (w := ⟨false, splits, [], zs⟩) (hstops.imp_right fun h => nomatch h.1)
  | cons heof hallow h ih => exact .cons heof (fun h => nomatch h) ih
  | split hsplits p hclosing h ih => exact .split (w := ⟨false, splits, [], zs⟩) hsplits p hclosing ih

end Twin

namespace Parser

/-- Readings of types have split some `>>` in place: behind `vector` and `<`, and behind an element type that ends
before it. -/
inductive Respelt (ts : List Token) : List Token → Prop where
  | refl : Respelt ts ts
  | split {as bs us : List Token} {p p₁ p₂ : Pos} {n : Nat} {element : Ty}
      (h : Respelt ts (as ++ ⟨.word .vector, p₁⟩ :: ⟨.mark .lt, p₂⟩ :: (bs ++ ⟨.mark .gtGt, p⟩ :: us)))
      (hty : ty n (bs ++ ⟨.mark .gtGt, p⟩ :: us) = .ok (element, ⟨.mark .gtGt, p⟩ :: us)) :
      Respelt ts (as ++ ⟨.word .vector, p₁⟩ :: ⟨.mark .lt, p₂⟩ ::
        (bs ++ ⟨.mark .gt, p⟩ :: ⟨.mark .gt, p.right 1⟩ :: us))

/-- Behind the word `vector` a vector type begins, wherever it stands. -/
theorem step_vector (ph : Phase) : ∃ e, ph.step (.word .vector) = .name e := by
  cases ph with
  | element e => exact ⟨e, rfl⟩
  | idle | name | base => exact ⟨0, rfl⟩

/-- Before a `>>` that ends an element type the tokens are in the phase for it. -/
theorem run_element {bs us : List Token} {p : Pos} {n : Nat} {element : Ty}
    (hty : ty n (bs ++ ⟨.mark .gtGt, p⟩ :: us) = .ok (element, ⟨.mark .gtGt, p⟩ :: us)) (e : Nat) :
    (Phase.element (e + 1)).run bs = .base (e + 1) := by
  obtain ⟨ws, hws, -, hrun⟩ := walks_ty n (e + 1) hty
  obtain ⟨xs, hxs, hsplits⟩ := hws.eq_append fun t ht => Option.some.inj ht ▸ nofun
  obtain rfl := List.append_cancel_right hxs
  exact (Phase.run_splits hsplits _).symm.trans hrun

/-- What is respelt is read alike. -/
theorem Respelt.twin {ts us : List Token} (h : Respelt ts us) {xs : List Token} {t : Token} (ht : t.kind = .eof)
    (hts : ts = xs ++ [t]) (hxs : ∀ u ∈ xs, u.kind ≠ .eof) (σ : Spot) : Twin ⟨false, true, [], []⟩ σ ts us := by
  induction h with
  | refl =>
    subst hts
    exact .of_append ht rfl hxs σ
  | @split as bs us p p₁ p₂ n element h hty ih =>
    obtain ⟨e, he⟩ := step_vector (σ.phase.run as)
    have hphase : σ.phase.run (as ++ ⟨.word .vector, p₁⟩ :: ⟨.mark .lt, p₂⟩ :: bs) = .base (e + 1) := by
      rw [Phase.run_append, Phase.run, Phase.run, he]
      exact run_element hty e
    have htwin : Twin ⟨false, true, [], []⟩ σ ts
        ((as ++ ⟨.word .vector, p₁⟩ :: ⟨.mark .lt, p₂⟩ :: bs) ++ ⟨.mark .gtGt, p⟩ :: us) := by simpa using ih
    simpa using htwin.split_right rfl rfl rfl hphase

/-! ## Going back -/

/-- Whatever is read from `us` comes out as from `ts`, given fuel for all the tokens: the look-ahead for a function,
a statement or why it cannot be read, the inside of braces, what is skipped, and all items. -/
structure ReadAlike (lines : List String) (ts us : List Token) : Prop where
  head {n m : Nat} (hn : fuelFor ts ≤ n) (hm : fuelFor us ≤ m) : atFunction m us = atFunction n ts
  statement {n m : Nat} (hn : fuelFor ts ≤ n) (hm : fuelFor us ≤ m) :
    (statement lines m us).map (·.1) = (statement lines n ts).map (·.1)
  statements {n m : Nat} (hn : fuelFor ts ≤ n) (hm : fuelFor us ≤ m) :
    (statements lines m us).map (·.1) = (statements lines n ts).map (·.1)
  recovered (e : ParseError) : (recover lines e us).1 = (recover lines e ts).1
  items {n m k k' : Nat} (hn : fuelFor ts ≤ n) (hm : fuelFor us ≤ m) (hk : ts.length < k) (hk' : us.length < k') :
    items lines m k' us = items lines n k ts

variable {w : Tails} {lines : List String}

theorem Agreed.map_eq {α : Type} {V : α → Prop} {k : Nat} {σ σ' : Spot} {ts us : List Token}
    {r s : Except ParseError (α × List Token)} : Agreed w V k σ σ' ts us r s → s.map (·.1) = r.map (·.1)
  | .ok .. => rfl
  | .error _ => rfl

/-- Skipping covers the same lines, also where it begins with a brace that closes none. -/
theorem recover_twin {d : Nat} {ts us : List Token} (h : Twin w (.plain d) ts us) (e : ParseError) :
    (recover lines e us).1 = (recover lines e ts).1 := by
  obtain ⟨t, ts, us, rfl, rfl, -⟩ := h.head_eq plain_not_closing
  unfold recover
  dsimp only [next]
  by_cases hbrace : t.kind = .mark .rbrace
  · obtain ⟨k, p⟩ := t
    obtain rfl : k = .mark .rbrace := hbrace
    rfl
  · have hskip := twin_skipConstruct (d := d) h 0 0 true t.pos.line rfl fun _ _ u hu => Option.some.inj hu ▸ hbrace
    rw [hskip.line_eq]

/-- Tokens up to the end of the file may be tried again as they are alike. -/
theorem ReadAlike.of_twin (hw : w.inner = false) {ts us : List Token} (h : Twin w (.plain 0) ts us) :
    ReadAlike lines ts us where
  head hn hm := by
    unfold fuelFor at hn hm
    exact atFunction_tandem h ⟨by omega, by omega⟩
  statement {n m} hn hm := by
    unfold fuelFor at hn hm
    exact ((tandemStmt w lines n m).statement ⟨by omega, by omega⟩ h (Nat.le_refl _) (Nat.le_refl _)).map_eq
  statements {n m} hn hm := by
    unfold fuelFor at hn hm
    exact ((tandemStmt w lines n m).statements ⟨by omega, by omega⟩ h (Nat.le_refl _) (Nat.le_refl _)).map_eq
  recovered e := recover_twin h e
  items {n m k k'} hn hm hk hk' := by
    unfold fuelFor at hn hm
    obtain ⟨xs, t, -, -, hitems, hitems', -⟩ :=
      items_tandem lines (n := n) (m := m) hw h ⟨by omega, by omega⟩ hk hk'
    rw [hitems, hitems']

end Parser

end CallTrace.Surface
