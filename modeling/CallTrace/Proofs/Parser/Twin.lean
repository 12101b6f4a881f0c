import CallTrace.Proofs.Token.Taking
import CallTrace.Surface.Parser

/-! # Tokens that are read alike

A reader that fails may have split a `>>` in place before, and reading goes on with the tokens as they are then.

* `Phase`: where reading is in a vector type; `Spot` adds the open braces and whether a `using` is open.
* `Twin w σ ts us`: from the spot `σ` on, the tokens `us` are read as `ts` are. Some `>>` of `ts` that end vector
  types may be split in `us`. The tokens agree up to the end of the file, or up to a brace that closes no brace of
  theirs, and what stands behind does not matter; `w` says which, and what stands there.
-/

namespace CallTrace.Surface
set_option autoImplicit false

open Surface.Parser (scalar?)

/-! ## Spots -/

/-- Where reading is in a vector type. -/
inductive Phase where
  /-- In none. -/
  | idle
  /-- Behind the word `vector`, inside of `e` angle brackets. -/
  | name (e : Nat)
  /-- Inside of `e` angle brackets, before the element type of the innermost. -/
  | element (e : Nat)
  /-- Inside of `e` angle brackets, behind the element type of the innermost. -/
  | base (e : Nat)

namespace Phase

/-- Before a type inside of `e` angle brackets. -/
def opened : Nat → Phase
  | 0 => .idle
  | e + 1 => .element (e + 1)

/-- Behind a type inside of `e` angle brackets. -/
def closed : Nat → Phase
  | 0 => .idle
  | e + 1 => .base (e + 1)

def close : Phase → Phase
  | .base (e + 1) => .closed e
  | _ => .idle

def word : Phase → Keyword → Phase
  | .element e, .vector => .name e
  | .element e, .const => .element e
  | .element e, w => if (scalar? w).isSome then .base e else .idle
  | .base e, .const => .base e
  | .base _, .vector => .name 0
  | .base e, w => if (scalar? w).isSome then .base e else .idle
  | _, .vector => .name 0
  | _, _ => .idle

/-- Behind one more token. -/
def step (ph : Phase) : Token.Kind → Phase
  | .word w => ph.word w
  | .mark .lt => match ph with
    | .name e => .element (e + 1)
    | _ => .idle
  | .mark .amp => match ph with
    | .base e => .base e
    | _ => .idle
  | .mark .gt => ph.close
  | .mark .gtGt => ph.close.close
  | _ => .idle

theorem idle_step {k : Token.Kind} (h : k ≠ .word .vector) : idle.step k = .idle := by
  cases k with
  | word w => cases w <;> first | rfl | exact absurd rfl h
  | mark m => cases m <;> rfl
  | _ => rfl

theorem opened_const (e : Nat) : (opened e).step (.word .const) = opened e := by
  cases e <;> rfl

theorem opened_vector (e : Nat) : (opened e).step (.word .vector) = .name e := by
  cases e <;> rfl

theorem opened_scalar (e : Nat) {w : Keyword} (h : (scalar? w).isSome) : (opened e).step (.word w) = closed e := by
  cases e <;> cases w <;> first | rfl | cases h

theorem closed_const (e : Nat) : (closed e).step (.word .const) = closed e := by
  cases e <;> rfl

theorem closed_scalar (e : Nat) {w : Keyword} (h : (scalar? w).isSome) : (closed e).step (.word w) = closed e := by
  cases e <;> cases w <;> first | rfl | cases h

theorem closed_amp (e : Nat) : (closed e).step (.mark .amp) = closed e := by
  cases e <;> rfl

end Phase

/-- Where reading is: in a type, inside of some braces, and whether a `using` waits for its semicolon. -/
structure Spot where
  phase : Phase
  braces : Nat
  inUsing : Bool

namespace Spot

/-- Between constructs, inside of `d` braces. -/
def plain (d : Nat) : Spot := ⟨.idle, d, false⟩

/-- Behind one more token. -/
def step (σ : Spot) (k : Token.Kind) : Spot :=
  ⟨σ.phase.step k, (braceStep σ.braces k).getD 0, usingStep σ.inUsing k⟩

/-- A `>` that comes next, also as a half of `>>`, ends a vector type. -/
def Closing (σ : Spot) : Prop := ∃ e, σ.phase = .base (e + 1)

theorem plain_not_closing (d : Nat) : ¬ (plain d).Closing := nofun

end Spot

/-! ## Twins -/

/-- What ends tokens that are read alike: the end of the file, or with `inner` also a brace that closes none of
theirs. Whether some `>>` may be split. What stands behind the end in either list. -/
structure Tails where
  inner : Bool
  splits : Bool
  left : List Token
  right : List Token

/-- Tokens need to agree only up to a token of this kind. -/
def Tails.Stops (w : Tails) (σ : Spot) (k : Token.Kind) : Prop :=
  k = .eof ∨ (w.inner ∧ k = .mark .rbrace ∧ σ.braces = 0 ∧ σ.inUsing = false)

/-- With `inner`, no brace stands between `using` and its semicolon, and no brace closes none. -/
def Tails.Allows (w : Tails) (σ : Spot) (k : Token.Kind) : Prop :=
  w.inner → isBrace k → σ.inUsing = false ∧ (k = .mark .rbrace → σ.braces ≠ 0)

/-- From the spot `σ` on, the second list is read as the first one. -/
inductive Twin (w : Tails) : Spot → List Token → List Token → Prop where
  | stop {σ : Spot} {t : Token} (h : w.Stops σ t.kind) : Twin w σ (t :: w.left) (t :: w.right)
  | cons {σ : Spot} {t : Token} {ts us : List Token} (heof : t.kind ≠ .eof) (hallow : w.Allows σ t.kind)
      (h : Twin w (σ.step t.kind) ts us) : Twin w σ (t :: ts) (t :: us)
  | split {σ : Spot} (hsplits : w.splits) (p : Pos) {ts us : List Token} (hclosing : σ.Closing)
      (h : Twin w ((σ.step (.mark .gt)).step (.mark .gt)) ts us) :
      Twin w σ (⟨.mark .gtGt, p⟩ :: ts) (⟨.mark .gt, p⟩ :: ⟨.mark .gt, p.right 1⟩ :: us)

namespace Twin

variable {w : Tails} {σ σ' : Spot} {d d' : Nat} {ts us : List Token}

theorem left_ne_nil (h : Twin w σ ts us) : ts ≠ [] := by
  cases h <;> exact List.cons_ne_nil _ _

/-- The same token comes next, where no vector type may end. -/
theorem head_eq (h : Twin w σ ts us) (hσ : ¬ σ.Closing) :
    ∃ t ts' us', ts = t :: ts' ∧ us = t :: us' ∧
      ((w.Stops σ t.kind ∧ ts' = w.left ∧ us' = w.right) ∨
        (t.kind ≠ .eof ∧ w.Allows σ t.kind ∧ Twin w (σ.step t.kind) ts' us')) := by
  cases h with
  | stop h => exact ⟨_, _, _, rfl, rfl, .inl ⟨h, rfl, rfl⟩⟩
  | cons heof hallow h => exact ⟨_, _, _, rfl, rfl, .inr ⟨heof, hallow, h⟩⟩
  | split hsplits p hclosing h => exact absurd hclosing hσ

/-- Tokens that are read alike are the same when none are split and the same stands behind them. -/
theorem eq (h : Twin w σ ts us) (hsplits : w.splits = false) (htails : w.left = w.right) : us = ts := by
  induction h with
  | stop h => rw [htails]
  | cons heof hallow h ih => rw [ih]
  | split hsplit p hclosing h ih =>
    rw [hsplits] at hsplit
    cases hsplit

/-- Up to the end of the file braces and `using` do not matter. -/
theorem of_phase_eq (hw : w.inner = false) (h : Twin w σ ts us) (hphase : σ'.phase = σ.phase) : Twin w σ' ts us := by
  induction h generalizing σ' with
  | stop h =>
    rcases h with h | ⟨h, -⟩
    · exact .stop (.inl h)
    · exact absurd h (by simp [hw])
  | @cons σ t ts us heof hallow h ih =>
    refine .cons heof (fun h => absurd h (by simp [hw])) (ih ?_)
    show σ'.phase.step t.kind = σ.phase.step t.kind
    rw [hphase]
  | @split σ hsplits p ts us hclosing h ih =>
    refine .split hsplits p ?_ (ih ?_)
    · obtain ⟨e, he⟩ := hclosing
      exact ⟨e, hphase.trans he⟩
    · show (σ'.phase.step (.mark .gt)).step (.mark .gt) = (σ.phase.step (.mark .gt)).step (.mark .gt)
      rw [hphase]

/-- Tokens are read alike when only what stands behind their end differs. -/
theorem of_append {t : Token} {ws : List Token} (ht : t.kind = .eof) (hw : w.inner = false)
    (hws : ∀ u ∈ ws, u.kind ≠ .eof) (σ : Spot) : Twin w σ (ws ++ t :: w.left) (ws ++ t :: w.right) := by
  induction ws generalizing σ with
  | nil => exact .stop (.inl ht)
  | cons u ws ih =>
    refine .cons (hws u (List.mem_cons_self ..)) (fun h => absurd h (by simp [hw])) ?_
    exact ih (fun v hv => hws v (List.mem_cons_of_mem u hv)) _

end Twin

end CallTrace.Surface
