import CallTrace.Proofs.Expression.Types
import CallTrace.Proofs.Parser.Twin

/-! # Readers in tandem

* `Parser.Agreed`: two results of reading. The same has been read, from tokens that are left alike, or the same
  error was found, which is not that fuel ran out.
* `Parser.Tandem V k N M σ σ' p q`: from tokens that are read alike, `N` and `M` of them at most, `p` and `q` agree.
  What they read has the property `V`, and they take `k` tokens or more on the way from `σ` to `σ'`.
* `Parser.tandem_ty`: types, which alone end in half of a `>>`.

One rule stands for each way in which readers are put together, and one lemma for each single token.
-/

namespace CallTrace.Surface
set_option autoImplicit false

namespace Parser

variable {w : Tails} {α β : Type} {V : α → Prop} {W : β → Prop} {σ σ₁ σ' : Spot} {k j N M d d' : Nat}

/-- What is read has no property of interest. -/
def Any (_ : α) : Prop := True

/-- Two results of reading from `ts` and from `us`. -/
inductive Agreed (w : Tails) (V : α → Prop) (k : Nat) (σ σ' : Spot) (ts us : List Token) :
    Except ParseError (α × List Token) → Except ParseError (α × List Token) → Prop where
  | ok {a : α} {vs ws : List Token} (ha : V a) (htwin : Twin w σ' vs ws)
      (huses : Uses k σ.braces σ'.braces ts vs) (hshorter : ws.length + k ≤ us.length) :
      Agreed w V k σ σ' ts us (.ok (a, vs)) (.ok (a, ws))
  | error {e : ParseError} (he : e ≠ .outOfFuel) : Agreed w V k σ σ' ts us (.error e) (.error e)

/-- From tokens that are read alike `p` and `q` agree. -/
def Tandem (w : Tails) (V : α → Prop) (k N M : Nat) (σ σ' : Spot) (p q : Parser α) : Prop :=
  ∀ ⦃ts us : List Token⦄, Twin w σ ts us → ts.length ≤ N → us.length ≤ M → Agreed w V k σ σ' ts us (p ts) (q us)

/-- As `Tandem`, when the token `t` comes next. -/
def TandemAt (w : Tails) (t : Token) (V : α → Prop) (k N M : Nat) (σ σ' : Spot) (p q : Parser α) : Prop :=
  ∀ ⦃ts us : List Token⦄, Twin w σ (t :: ts) (t :: us) → ts.length < N → us.length < M →
    Agreed w V k σ σ' (t :: ts) (t :: us) (p (t :: ts)) (q (t :: us))

/-- No more than `N'` and `M'` tokens are left of `N` and `M` when `k` have been taken. -/
abbrev Left (k N M N' M' : Nat) : Prop := N' + k ≤ N ∧ M' + k ≤ M

/-- The fuel is enough for `N` and `M` tokens and `c` more calls. -/
abbrev Fits (c n m N M : Nat) : Prop := 16 * N + c ≤ n ∧ 16 * M + c ≤ m

/-! ## Rules -/

theorem Agreed.mono {ts us : List Token} {r s : Except ParseError (α × List Token)} (hj : j ≤ k)
    (h : Agreed w V k σ σ' ts us r s) : Agreed w V j σ σ' ts us r s := by
  cases h with
  | ok ha htwin huses hshorter => exact .ok ha htwin (huses.mono hj) (by omega)
  | error he => exact .error he

/-- What agrees after some tokens have been taken agrees. -/
theorem Agreed.after {ts us vs ws : List Token} {r s : Except ParseError (α × List Token)}
    (huses : Uses k σ.braces σ₁.braces ts vs) (hshorter : ws.length + k ≤ us.length)
    (h : Agreed w V j σ₁ σ' vs ws r s) : Agreed w V (k + j) σ σ' ts us r s := by
  cases h with
  | ok ha htwin huses' hshorter' => exact .ok ha htwin (huses.trans huses') (by omega)
  | error he => exact .error he

namespace Tandem

theorem pure {a : α} (h : V a) : Tandem w V 0 N M σ σ (Pure.pure a) (Pure.pure a) :=
  fun _ _ htwin _ _ => .ok h htwin (.refl _ _) (Nat.le_refl _)

theorem fail {e : ParseError} (he : e ≠ .outOfFuel := by simp) : Tandem w V k N M σ σ' (throw e : Parser α) (throw e) :=
  fun _ _ _ _ _ => .error he

theorem mono {p q : Parser α} (h : Tandem w V k N M σ σ' p q) (hj : j ≤ k) : Tandem w V j N M σ σ' p q :=
  fun _ _ htwin hN hM => (h htwin hN hM).mono hj

theorem bind {p q : Parser α} {f g : α → Parser β} (h : Tandem w V k N M σ σ₁ p q)
    (hf : ∀ a, V a → ∀ ⦃N' M' : Nat⦄, Left k N M N' M' → Tandem w W (j - k) N' M' σ₁ σ' (f a) (g a)) :
    Tandem w W j N M σ σ' (p >>= f) (q >>= g) := by
  intro ts us htwin hN hM
  show Agreed w W j σ σ' ts us (Except.bind (p ts) fun r => f r.1 r.2) (Except.bind (q us) fun r => g r.1 r.2)
  generalize p ts = r, q us = s, h htwin hN hM = hagreed
  cases hagreed with
  | @ok a vs ws ha htwin huses hshorter =>
    have hshorter' := huses.shorter
    have hleft : Left k N M vs.length ws.length := ⟨by omega, by omega⟩
    exact ((hf a ha hleft htwin (Nat.le_refl _) (Nat.le_refl _)).after huses hshorter).mono (by omega)
  | error he => exact .error he

theorem map {p q : Parser α} {f : α → β} (h : Tandem w V k N M σ σ' p q) (hf : ∀ a, V a → W (f a)) :
    Tandem w W k N M σ σ' (f <$> p) (f <$> q) := by
  intro ts us htwin hN hM
  show Agreed w W k σ σ' ts us (Except.bind (p ts) fun r => .ok (f r.1, r.2))
    (Except.bind (q us) fun r => .ok (f r.1, r.2))
  generalize p ts = r, q us = s, h htwin hN hM = hagreed
  cases hagreed with
  | ok ha htwin huses hshorter => exact .ok (hf _ ha) htwin huses hshorter
  | error he => exact .error he

/-- A token that is looked at. -/
theorem peek {f g : Token → Parser β} (hσ : ¬ σ.Closing) (hf : ∀ t, TandemAt w t W k N M σ σ' (f t) (g t)) :
    Tandem w W k N M σ σ' (Parser.peek >>= f) (Parser.peek >>= g) := by
  intro ts us htwin hN hM
  obtain ⟨t, ts, us, rfl, rfl, -⟩ := htwin.head_eq hσ
  exact hf t htwin hN hM

/-- The tokens that are looked at. -/
theorem get {f g : List Token → Parser β}
    (h : ∀ ts us, Twin w σ ts us → ts.length ≤ N → us.length ≤ M → Tandem w W k N M σ σ' (f ts) (g us)) :
    Tandem w W k N M σ σ' (get >>= f) (get >>= g) :=
  fun ts us htwin hN hM => h ts us htwin hN hM htwin hN hM

end Tandem

/-- What agrees from any tokens agrees when `t` comes next. -/
theorem TandemAt.of {t : Token} {p q : Parser α} (h : Tandem w V k N M σ σ' p q) : TandemAt w t V k N M σ σ' p q :=
  fun _ _ htwin hN hM => h htwin hN hM

/-! ## Single tokens -/

theorem rest_cons {t : Token} (h : t.kind ≠ .eof) (ts : List Token) : rest (t :: ts) = ts := by
  obtain ⟨k, p⟩ := t
  cases k <;> first | rfl | exact absurd rfl h

/-- A token that may be taken: it is not the end of the file, and if it is a brace, it closes one. -/
structure Takeable (σ σ₁ : Spot) (k : Token.Kind) : Prop where
  ne_eof : k ≠ .eof
  step_eq : σ.step k = σ₁
  braces_eq : braceStep σ.braces k = some σ₁.braces

theorem Takeable.not_stops {t : Token} (h : Takeable σ σ₁ t.kind) : ¬ w.Stops σ t.kind := by
  rintro (hk | ⟨-, hk, hbraces, -⟩)
  · exact h.ne_eof hk
  · have hd := h.braces_eq
    rw [hk, hbraces] at hd
    cases hd

/-- A token that is no brace and opens no `using` changes nothing but the phase. -/
theorem takeable_of_phase {ph ph' : Phase} {k : Token.Kind} (hph : ph.step k = ph') (heof : k ≠ .eof := by simp)
    (hbrace : isBrace k = false := by rfl) (husing : k ≠ .word .usingWord := by simp) :
    Takeable ⟨ph, d, false⟩ ⟨ph', d, false⟩ k := by
  have hd := braceStep_of_not_isBrace hbrace d
  refine ⟨heof, ?_, hd⟩
  show Spot.mk (ph.step k) ((braceStep d k).getD 0) (usingStep false k) = _
  rw [hph, hd, usingStep_false husing]
  rfl

/-- Outside of types a mark changes nothing but the open braces. -/
theorem takeable_mark {m : Mark} (hd : braceStep d (.mark m) = some d') :
    Takeable (.plain d) (.plain d') (.mark m) := by
  refine ⟨nofun, ?_, hd⟩
  show Spot.mk (Phase.idle.step (.mark m)) ((braceStep d (.mark m)).getD 0) (usingStep false (.mark m)) = _
  rw [Phase.idle_step (k := .mark m) nofun, hd, usingStep_false (k := .mark m) nofun]
  rfl

/-- Outside of types other tokens change nothing. -/
theorem takeable_plain {k : Token.Kind} (hvector : k ≠ .word .vector := by simp) (heof : k ≠ .eof := by simp)
    (hbrace : isBrace k = false := by rfl) (husing : k ≠ .word .usingWord := by simp) :
    Takeable (.plain d) (.plain d) k :=
  takeable_of_phase (Phase.idle_step hvector) heof hbrace husing

/-- The token that comes next is taken from both lists. -/
theorem Takeable.take {t : Token} {ts us : List Token} (h : Takeable σ σ₁ t.kind)
    (htwin : Twin w σ (t :: ts) (t :: us)) :
    Twin w σ₁ ts us ∧ Uses 1 σ.braces σ₁.braces (t :: ts) ts := by
  refine ⟨?_, .one h.ne_eof h.braces_eq ts⟩
  cases htwin with
  | stop hstops => exact absurd hstops h.not_stops
  | cons heof hallow htwin => exact h.step_eq ▸ htwin

theorem Takeable.advance {t : Token} {f g : Unit → Parser β} (h : Takeable σ σ₁ t.kind)
    (hf : ∀ ⦃N' M' : Nat⦄, Left 1 N M N' M' → Tandem w W (j - 1) N' M' σ₁ σ' (f ()) (g ())) :
    TandemAt w t W j N M σ σ' (advance >>= f) (advance >>= g) := by
  intro ts us htwin hN hM
  obtain ⟨htwin, huses⟩ := h.take htwin
  show Agreed w W j σ σ' (t :: ts) (t :: us) (f () (rest (t :: ts))) (g () (rest (t :: us)))
  rw [rest_cons h.ne_eof, rest_cons h.ne_eof]
  have hleft : Left 1 N M ts.length us.length := ⟨hN, hM⟩
  exact ((hf hleft htwin (Nat.le_refl _) (Nat.le_refl _)).after huses (Nat.le_refl _)).mono (by omega)

/-! ## Tokens that may come next -/

/-- Consumes the token that comes next if it is one for `g`. -/
def acceptBy {γ : Type} (g : Token.Kind → Option α) (r : α → Pos → γ) : Parser (Option γ) := fun ts =>
  match ts with
  | t :: us => match g t.kind with
    | some a => .ok (some (r a t.pos), us)
    | none => .ok (none, ts)
  | [] => .ok (none, ts)

def markOf (m : Mark) : Token.Kind → Option Unit
  | .mark k => if k = m then some () else none
  | _ => none

def wordOf (w : Keyword) : Token.Kind → Option Unit
  | .word k => if k = w then some () else none
  | _ => none

def binOpOf (level : Nat) : Token.Kind → Option BinOp
  | .mark m => match binOp? m with
    | some op => if op.level = level then some op else none
    | none => none
  | _ => none

def compoundOf : Token.Kind → Option BinOp
  | .mark m => compoundOp? m
  | _ => none

theorem markOf_eq {m : Mark} {k : Token.Kind} {a : Unit} (h : markOf m k = some a) : k = .mark m := by
  cases k with
  | mark k =>
    by_cases hk : k = m
    · rw [hk]
    · simp [markOf, hk] at h
  | _ => cases h

theorem wordOf_eq {w : Keyword} {k : Token.Kind} {a : Unit} (h : wordOf w k = some a) : k = .word w := by
  cases k with
  | word k =>
    by_cases hk : k = w
    · rw [hk]
    · simp [wordOf, hk] at h
  | _ => cases h

theorem accept_by (m : Mark) : accept m = acceptBy (markOf m) fun _ p => p := by
  funext ts
  obtain _ | ⟨⟨k, p⟩, us⟩ := ts
  · rfl
  cases k with
  | mark k =>
    simp only [accept, acceptBy, markOf]
    split <;> rfl
  | _ => rfl

theorem acceptWord_by (w : Keyword) : acceptWord w = acceptBy (wordOf w) fun _ p => p := by
  funext ts
  obtain _ | ⟨⟨k, p⟩, us⟩ := ts
  · rfl
  cases k with
  | word k =>
    simp only [acceptWord, acceptBy, wordOf]
    split <;> rfl
  | _ => rfl

theorem acceptBinOp_by (level : Nat) : acceptBinOp level = acceptBy (binOpOf level) fun op p => (op, p) := by
  funext ts
  obtain _ | ⟨⟨k, p⟩, us⟩ := ts
  · rfl
  cases k with
  | mark m =>
    simp only [acceptBinOp, acceptBy, binOpOf]
    cases binOp? m with
    | none => rfl
    | some op =>
      dsimp only
      split <;> rfl
  | _ => rfl

theorem acceptCompound_by : acceptCompound = acceptBy compoundOf fun op p => (op, p) := by
  funext ts
  obtain _ | ⟨⟨k, p⟩, us⟩ := ts
  · rfl
  cases k with
  | mark m =>
    simp only [acceptCompound, acceptBy, compoundOf]
    cases compoundOp? m <;> rfl
  | _ => rfl

namespace Tandem

/-- A token that may come next, and what is read behind it. -/
theorem acceptBy {γ : Type} {g : Token.Kind → Option α} {r : α → Pos → γ} {f f' : Option γ → Parser β}
    (hg : ∀ t a, g t = some a → Takeable σ σ₁ t)
    (hsplit : σ.Closing → g (.mark .gt) = none ∧ g (.mark .gtGt) = none)
    (hsome : ∀ c, ∀ ⦃N' M' : Nat⦄, Left 1 N M N' M' → Tandem w W (j - 1) N' M' σ₁ σ' (f (some c)) (f' (some c)))
    (hnone : Tandem w W j N M σ σ' (f none) (f' none)) :
    Tandem w W j N M σ σ' (Parser.acceptBy g r >>= f) (Parser.acceptBy g r >>= f') := by
  intro ts us htwin hN hM
  show Agreed w W j σ σ' ts us (Except.bind (Parser.acceptBy g r ts) fun x => f x.1 x.2)
    (Except.bind (Parser.acceptBy g r us) fun x => f' x.1 x.2)
  have hrefused := hnone htwin hN hM
  have htaken {t : Token} {vs ws : List Token} (htwin : Twin w σ (t :: vs) (t :: ws)) (hvs : vs.length < N)
      (hws : ws.length < M) {a : α} (ha : g t.kind = some a) :
      Agreed w W j σ σ' (t :: vs) (t :: ws) (f (some (r a t.pos)) vs) (f' (some (r a t.pos)) ws) := by
    obtain ⟨htwin, huses⟩ := (hg _ a ha).take htwin
    have hleft : Left 1 N M vs.length ws.length := ⟨hvs, hws⟩
    exact ((hsome _ hleft htwin (Nat.le_refl _) (Nat.le_refl _)).after huses (Nat.le_refl _)).mono (by omega)
  unfold Parser.acceptBy
  cases htwin with
  | stop hstops | cons heof hallow h =>
    dsimp only
    split
    · next a ha => exact htaken (by first | exact .stop hstops | exact .cons heof hallow h) hN hM ha
    · exact hrefused
  | split hsplits p hclosing h =>
    dsimp only
    rw [(hsplit hclosing).1, (hsplit hclosing).2]
    exact hrefused

/-- The mark `m`, which may be a brace, may come next. -/
theorem accept {m : Mark} {f g : Option Pos → Parser β} (h : Takeable σ σ₁ (.mark m))
    (hgt : m ≠ .gt ∧ m ≠ .gtGt)
    (hsome : ∀ p, ∀ ⦃N' M' : Nat⦄, Left 1 N M N' M' → Tandem w W (j - 1) N' M' σ₁ σ' (f (some p)) (g (some p)))
    (hnone : Tandem w W j N M σ σ' (f none) (g none)) :
    Tandem w W j N M σ σ' (accept m >>= f) (accept m >>= g) := by
  rw [accept_by]
  refine acceptBy (fun t a ha => markOf_eq ha ▸ h) (fun _ => ?_) hsome hnone
  exact ⟨if_neg (Ne.symm hgt.1), if_neg (Ne.symm hgt.2)⟩

theorem acceptWord {k : Keyword} {f g : Option Pos → Parser β} (h : Takeable σ σ₁ (.word k))
    (hsome : ∀ p, ∀ ⦃N' M' : Nat⦄, Left 1 N M N' M' → Tandem w W (j - 1) N' M' σ₁ σ' (f (some p)) (g (some p)))
    (hnone : Tandem w W j N M σ σ' (f none) (g none)) :
    Tandem w W j N M σ σ' (acceptWord k >>= f) (acceptWord k >>= g) := by
  rw [acceptWord_by]
  exact acceptBy (fun t a ha => wordOf_eq ha ▸ h) (fun _ => ⟨rfl, rfl⟩) hsome hnone

theorem acceptBinOp {level : Nat} {f g : Option (BinOp × Pos) → Parser β}
    (hsome : ∀ c, ∀ ⦃N' M' : Nat⦄, Left 1 N M N' M' → Tandem w W (j - 1) N' M' (.plain d) σ' (f (some c)) (g (some c)))
    (hnone : Tandem w W j N M (.plain d) σ' (f none) (g none)) :
    Tandem w W j N M (.plain d) σ' (acceptBinOp level >>= f) (acceptBinOp level >>= g) := by
  rw [acceptBinOp_by]
  refine acceptBy (fun t a ha => ?_) (fun h => absurd h (Spot.plain_not_closing d)) hsome hnone
  cases t with
  | mark m => cases m <;> first | exact takeable_mark rfl | cases ha
  | _ => cases ha

theorem acceptCompound {f g : Option (BinOp × Pos) → Parser β}
    (hsome : ∀ c, ∀ ⦃N' M' : Nat⦄, Left 1 N M N' M' → Tandem w W (j - 1) N' M' (.plain d) σ' (f (some c)) (g (some c)))
    (hnone : Tandem w W j N M (.plain d) σ' (f none) (g none)) :
    Tandem w W j N M (.plain d) σ' (acceptCompound >>= f) (acceptCompound >>= g) := by
  rw [acceptCompound_by]
  refine acceptBy (fun t a ha => ?_) (fun h => absurd h (Spot.plain_not_closing d)) hsome hnone
  cases t with
  | mark m => cases m <;> first | exact takeable_mark rfl | cases ha
  | _ => cases ha

/-- Whether a mark comes next. -/
theorem at? {m : Mark} {f g : Bool → Parser β} (hf : ∀ b, Tandem w W k N M (.plain d) σ' (f b) (g b)) :
    Tandem w W k N M (.plain d) σ' (at? m >>= f) (at? m >>= g) := by
  intro ts us htwin hN hM
  obtain ⟨⟨kind, p⟩, vs, ws, rfl, rfl, -⟩ := htwin.head_eq (Spot.plain_not_closing d)
  cases kind <;> exact hf _ htwin hN hM

/-- The mark `m` must come next. -/
theorem expect {m : Mark} (place : String) (h : Takeable σ σ₁ (.mark m)) (hgt : m ≠ .gt ∧ m ≠ .gtGt)
    (hσ : ¬ σ.Closing) : Tandem w Any 1 N M σ σ₁ (expect m place) (expect m place) := by
  unfold Parser.expect
  exact accept h hgt (fun p _ _ _ => .pure trivial) (.peek hσ fun t => .of .fail)

theorem expectWord {k : Keyword} (place : String) (h : Takeable σ σ₁ (.word k)) (hσ : ¬ σ.Closing) :
    Tandem w Any 1 N M σ σ₁ (expectWord k place) (expectWord k place) := by
  unfold Parser.expectWord
  exact acceptWord h (fun p _ _ _ => .pure trivial) (.peek hσ fun t => .of .fail)

theorem expectName : Tandem w Any 1 N M (.plain d) (.plain d) expectName expectName := by
  intro ts us htwin hN hM
  obtain ⟨⟨kind, p⟩, vs, ws, rfl, rfl, -⟩ := htwin.head_eq (Spot.plain_not_closing d)
  cases kind with
  | name s =>
    have htake : Takeable (.plain d) (.plain d) (.name s) := takeable_plain
    obtain ⟨htwin, huses⟩ := htake.take htwin
    exact .ok trivial htwin huses (Nat.le_refl _)
  | _ => exact .error nofun

end Tandem

/-- The name of a parameter, which may be missing. -/
def acceptName : Parser String := fun ts => match ts with
  | ⟨.name s, _⟩ :: us => .ok (s, us)
  | _ => .ok ("", ts)

theorem tandem_acceptName : Tandem w Any 0 N M (.plain d) (.plain d) acceptName acceptName := by
  intro ts us htwin _ _
  obtain ⟨⟨kind, p⟩, vs, ws, rfl, rfl, -⟩ := htwin.head_eq (Spot.plain_not_closing d)
  cases kind with
  | name s =>
    have hname : Takeable (.plain d) (.plain d) (.name s) := takeable_plain
    obtain ⟨htwin, huses⟩ := hname.take htwin
    exact .ok trivial htwin (huses.mono (Nat.zero_le _)) (Nat.le_succ _)
  | _ => exact .ok trivial htwin (.refl _ _) (Nat.le_refl _)

/-! ## Types -/

theorem opened_not_closing (e d : Nat) : ¬ (Spot.mk (.opened e) d false).Closing := by
  cases e <;> nofun

theorem name_not_closing (e d : Nat) : ¬ (Spot.mk (.name e) d false).Closing := nofun

theorem tandem_tyMarks (e : Nat) :
    Tandem w Any 0 N M ⟨.closed e, d, false⟩ ⟨.closed e, d, false⟩ tyMarks tyMarks := by
  have hconst : Takeable ⟨.closed e, d, false⟩ ⟨.closed e, d, false⟩ (.word .const) :=
    takeable_of_phase (Phase.closed_const e)
  have hamp : Takeable ⟨.closed e, d, false⟩ ⟨.closed e, d, false⟩ (.mark .amp) :=
    takeable_of_phase (Phase.closed_amp e)
  have hmore {N M : Nat} (o : Option Pos) : Tandem w Any 0 N M ⟨.closed e, d, false⟩ ⟨.closed e, d, false⟩
      (accept .amp >>= fun r => Pure.pure (o.isSome, r.isSome))
      (accept .amp >>= fun r => Pure.pure (o.isSome, r.isSome)) :=
    .accept hamp (by simp) (fun p _ _ _ => .pure trivial) (.pure trivial)
  exact .acceptWord hconst (fun p _ _ _ => hmore (some p)) (hmore none)

/-- Dropping the words of a `long` type. -/
theorem twin_dropLong {e : Nat} {ts us : List Token} (h : Twin w ⟨.closed e, d, false⟩ ts us) :
    Twin w ⟨.closed e, d, false⟩ (dropLong ts) (dropLong us) ∧ Uses 0 d d ts (dropLong ts) ∧
      (dropLong us).length ≤ us.length := by
  induction ts generalizing us with
  | nil => exact absurd rfl h.left_ne_nil
  | cons t ts ih =>
    have hkeep (h : Twin w ⟨.closed e, d, false⟩ (t :: ts) us) (hts : dropLong (t :: ts) = t :: ts)
        (hus : dropLong us = us) : Twin w ⟨.closed e, d, false⟩ (dropLong (t :: ts)) (dropLong us) ∧
          Uses 0 d d (t :: ts) (dropLong (t :: ts)) ∧ (dropLong us).length ≤ us.length := by
      rw [hts, hus]
      exact ⟨h, .refl d _, Nat.le_refl _⟩
    cases h with
    | split hsplits p hclosing h => exact hkeep (.split hsplits p hclosing h) rfl rfl
    | stop hstops =>
      obtain ⟨k, p⟩ := t
      rcases hstops with hk | ⟨hw, hk, hb, hu⟩ <;> obtain rfl : k = _ := hk
      · exact hkeep (.stop (.inl rfl)) rfl rfl
      · exact hkeep (.stop (.inr ⟨hw, rfl, hb, hu⟩)) rfl rfl
    | @cons _ _ _ us heof hallow h =>
      obtain ⟨k, p⟩ := t
      have hdrop (hk : Takeable ⟨.closed e, d, false⟩ ⟨.closed e, d, false⟩ k)
          (hts : dropLong (⟨k, p⟩ :: ts) = dropLong ts) (hus : dropLong (⟨k, p⟩ :: us) = dropLong us) :
          Twin w ⟨.closed e, d, false⟩ (dropLong (⟨k, p⟩ :: ts)) (dropLong (⟨k, p⟩ :: us)) ∧
            Uses 0 d d (⟨k, p⟩ :: ts) (dropLong (⟨k, p⟩ :: ts)) ∧
              (dropLong (⟨k, p⟩ :: us)).length ≤ (⟨k, p⟩ :: us : List Token).length := by
        obtain ⟨htwin, huses⟩ := hk.take (t := ⟨k, p⟩) (.cons heof hallow h)
        obtain ⟨htwin', huses', hlen⟩ := ih htwin
        rw [hts, hus]
        exact ⟨htwin', (huses.trans huses').mono (Nat.zero_le _), Nat.le_succ_of_le hlen⟩
      cases k with
      | word k =>
        cases k
        case long | int =>
          exact hdrop (takeable_of_phase (Phase.closed_scalar e rfl)) rfl rfl
        all_goals exact hkeep (.cons heof hallow h) rfl rfl
      | _ => exact hkeep (.cons heof hallow h) rfl rfl

theorem tandem_dropLong (e : Nat) :
    Tandem w Any 0 N M ⟨.closed e, d, false⟩ ⟨.closed e, d, false⟩ (modify dropLong) (modify dropLong) := by
  intro ts us htwin _ _
  obtain ⟨htwin', huses, hlen⟩ := twin_dropLong htwin
  exact .ok trivial htwin' huses hlen

/-- The end of a vector type, which may be half of a `>>` in one list and a `>` in the other. -/
theorem tandem_closeAngle (e : Nat) :
    Tandem w Any 0 N M ⟨.base (e + 1), d, false⟩ ⟨.closed e, d, false⟩ closeAngle closeAngle := by
  intro ts us htwin _ _
  have hhalf {p : Pos} {ts : List Token} : Uses 0 d d (⟨.mark .gtGt, p⟩ :: ts) (⟨.mark .gt, p.right 1⟩ :: ts) :=
    ⟨Nat.le_refl _, [⟨.mark .gt, p⟩], .half p (.nil _), fun t ht => List.eq_of_mem_singleton ht ▸ nofun,
      fun _ => .inr rfl⟩
  cases htwin with
  | @stop _ t hstops =>
    obtain ⟨k, p⟩ := t
    rcases hstops with hk | ⟨-, hk, -⟩ <;> obtain rfl : k = _ := hk <;> exact .error (by nofun)
  | split hsplits p hclosing h => exact .ok trivial (.cons nofun (fun _ => nofun) h) hhalf (Nat.le_succ _)
  | @cons _ t ts us heof hallow h =>
    obtain ⟨k, p⟩ := t
    cases k with
    | mark m =>
      cases m
      case gt => exact .ok trivial h ((Uses.one (t := ⟨.mark .gt, p⟩) nofun rfl ts).mono (Nat.zero_le _)) (Nat.le_succ _)
      case gtGt => exact .ok trivial (.cons nofun (fun _ => nofun) h) hhalf (Nat.le_refl _)
      all_goals exact .error nofun
    | _ => exact .error nofun

/-- Both readers of types, with `n` and `m` units of fuel. -/
structure TandemTy (w : Tails) (n m : Nat) : Prop where
  ty {N M d : Nat} (e : Nat) (hfits : Fits 1 n m N M) :
    Tandem w Any 1 N M ⟨.opened e, d, false⟩ ⟨.closed e, d, false⟩ (ty n) (ty m)
  vectorElement {N M d : Nat} (e : Nat) (hfits : Fits 1 n m N M) :
    Tandem w Any 1 N M ⟨.name e, d, false⟩ ⟨.closed e, d, false⟩ (vectorElement n) (vectorElement m)

namespace TandemTy

variable {n m : Nat} (h : TandemTy w n m)
include h

theorem vectorElement_succ (e : Nat) (hfits : Fits 1 (n + 1) (m + 1) N M) :
    Tandem w Any 1 N M ⟨.name e, d, false⟩ ⟨.closed e, d, false⟩ (Parser.vectorElement (n + 1))
      (Parser.vectorElement (m + 1)) := by
  have hlt : Takeable ⟨.name e, d, false⟩ ⟨.opened (e + 1), d, false⟩ (.mark .lt) :=
    takeable_of_phase rfl
  unfold Parser.vectorElement
  exact (Tandem.expect _ hlt (by simp) (name_not_closing e d)).bind fun _ _ _ _ _ =>
    ((h.ty (e + 1) (by omega)).mono (Nat.zero_le _)).bind fun _ _ _ _ _ =>
      (tandem_closeAngle e).bind fun _ _ _ _ _ => .pure trivial

theorem ty_succ (e : Nat) (hfits : Fits 1 (n + 1) (m + 1) N M) :
    Tandem w Any 1 N M ⟨.opened e, d, false⟩ ⟨.closed e, d, false⟩ (Parser.ty (n + 1)) (Parser.ty (m + 1)) := by
  have hconst : Takeable ⟨.opened e, d, false⟩ ⟨.opened e, d, false⟩ (.word .const) :=
    takeable_of_phase (Phase.opened_const e)
  have hvector : Takeable ⟨.opened e, d, false⟩ ⟨.name e, d, false⟩ (.word .vector) :=
    takeable_of_phase (Phase.opened_vector e)
  have hscalar {k : Keyword} (hk : (scalar? k).isSome) :
      Takeable ⟨.opened e, d, false⟩ ⟨.closed e, d, false⟩ (.word k) := by
    refine takeable_of_phase (Phase.opened_scalar e hk) nofun rfl fun husing => ?_
    rw [Token.Kind.word.inj husing] at hk
    cases hk
  have hbase (before : Bool) {N M : Nat} (hfits : Fits 1 (n + 1) (m + 1) N M) :
      Tandem w Any 1 N M ⟨.opened e, d, false⟩ ⟨.closed e, d, false⟩ (baseTy n before) (baseTy m before) := by
    refine .peek (opened_not_closing e d) fun t => ?_
    obtain ⟨kind, p⟩ := t
    cases kind with
    | word k =>
      cases k
      case vector =>
        exact hvector.advance fun _ _ _ => ((h.vectorElement e (by omega)).mono (Nat.zero_le _)).bind fun _ _ _ _ _ =>
          (tandem_tyMarks e).bind fun _ _ _ _ _ => .pure trivial
      case long =>
        exact (hscalar rfl).advance fun _ _ _ => (tandem_dropLong e).bind fun _ _ _ _ _ =>
          (tandem_tyMarks e).bind fun _ _ _ _ _ => .pure trivial
      all_goals first
        | exact (hscalar rfl).advance fun _ _ _ => (tandem_tyMarks e).bind fun _ _ _ _ _ => .pure trivial
        | exact .of .fail
    | _ => exact .of .fail
  rw [Parser.ty_succ, Parser.ty_succ]
  exact .acceptWord hconst (fun p _ _ _ => (hbase true (by omega)).mono (Nat.zero_le _)) (hbase false hfits)

end TandemTy

theorem tandemTy (w : Tails) (n m : Nat) : TandemTy w n m := by
  induction n generalizing m with
  | zero => exact ⟨fun _ h => absurd h.1 (by omega), fun _ h => absurd h.1 (by omega)⟩
  | succ n ih =>
    cases m with
    | zero => exact ⟨fun _ h => absurd h.2 (by omega), fun _ h => absurd h.2 (by omega)⟩
    | succ m => exact ⟨(ih m).ty_succ, (ih m).vectorElement_succ⟩

variable {n m : Nat}

theorem tandem_ty (hfits : Fits 1 n m N M) : Tandem w Any 1 N M (.plain d) (.plain d) (ty n) (ty m) :=
  (tandemTy w n m).ty 0 hfits

end Parser

end CallTrace.Surface
