import CallTrace.Proofs.Parser.Statements

/-! # Programs in tandem

* `Parser.tandem_item`: what stands at top level.
* `Parser.nextItem`: an item, read or skipped; `Parser.items` goes from one to the next.
* `Taken step ts xs us`: `step` is taken again and again, each time with a range of tokens that is not empty.
* `Parser.items_tandem`: the ranges of the items follow upon each other up to the end of the file, and tokens that are
  read alike have the same items.
-/

namespace CallTrace.Surface
set_option autoImplicit false

/-- No statement in this item was given up because fuel ran out. -/
def Item.Settled : Item → Prop
  | .function f => Stmt.SettledAll f.body
  | .declared .. => True
  | .stmt s => s.Settled

namespace Parser

variable {w : Tails} {N M d n m : Nat} {lines : List String}

/-! ## Functions -/

theorem tandem_parameter (hfits : Fits 1 n m N M) :
    Tandem w Any 1 N M (.plain d) (.plain d) (parameter n) (parameter m) :=
  (tandem_ty hfits).bind fun t _ _ _ _ => tandem_acceptName.bind fun name _ _ _ _ =>
    .accept (takeable rfl) (by simp) (fun _ _ _ _ => (Tandem.expectMark _).bind fun _ _ _ _ _ => .pure trivial)
      (.pure trivial)

theorem tandem_parametersTail (hfits : Fits 2 n m N M) :
    Tandem w Any 1 N M (.plain d) (.plain d) (parametersTail n) (parametersTail m) := by
  induction n generalizing m N M with
  | zero => exact absurd hfits.1 (by omega)
  | succ n ih =>
    cases m with
    | zero => exact absurd hfits.2 (by omega)
    | succ m =>
      unfold parametersTail
      refine (tandem_parameter (by omega)).bind fun p _ _ _ _ =>
        .accept (takeable rfl) (by simp) (fun _ _ _ _ => ?_) (.pure trivial)
      exact ((ih (by omega)).mono (Nat.zero_le _)).bind fun ps _ _ _ _ => .pure trivial

theorem tandem_parameters (hfits : Fits 2 n m N M) :
    Tandem w Any 0 N M (.plain d) (.plain d) (parameters n) (parameters m) := by
  intro ts us htwin hN hM
  have htail := ((tandem_parametersTail hfits).mono (Nat.zero_le _)) htwin hN hM
  obtain ⟨⟨kind, p⟩, vs, ws, rfl, rfl, hrest⟩ := htwin.head_eq plain_not_closing
  cases kind with
  | mark k =>
    cases k
    case rparen => exact .ok trivial htwin (.refl _ _) (Nat.le_refl _)
    all_goals exact htail
  | word k =>
    cases k
    case void =>
      -- a lone `void` is told from a first parameter by the token behind it
      obtain ⟨htwin', huses⟩ := (takeable_word (by decide)).take htwin
      obtain ⟨⟨kind, q⟩, vs, ws, rfl, rfl, -⟩ := htwin'.head_eq plain_not_closing
      cases kind with
      | mark k =>
        cases k
        case rparen => exact .ok trivial htwin' (huses.mono (Nat.zero_le _)) (Nat.le_succ _)
        all_goals exact htail
      | _ => exact htail
    all_goals exact htail
  | _ => exact htail

theorem tandem_function (hfits : Fits 15 n m N M) :
    Tandem w Item.Settled 1 N M (.plain d) (.plain d) (function lines n) (function lines m) := by
  have hopen : Takeable (.plain d) (.plain (d + 1)) (.mark .lbrace) := takeable_mark rfl
  have hclose : Takeable (.plain (d + 1)) (.plain d) (.mark .rbrace) := takeable_mark rfl
  refine (tandem_ty (by omega)).bind fun t _ _ _ _ => (Tandem.expectName.mono (Nat.zero_le _)).bind ?_
  rintro ⟨name, pos⟩ - _ _ _
  refine (Tandem.expectMark _).bind fun _ _ _ _ _ => (tandem_parameters (by omega)).bind fun params _ _ _ _ =>
    ((Tandem.expectMark _).mono (Nat.zero_le _)).bind fun _ _ _ _ _ =>
      .accept (takeable rfl) (by simp) (fun _ _ _ _ => .pure trivial) ?_
  exact (((Tandem.expect _ hopen (by simp) plain_not_closing).mono (Nat.zero_le _)).bind fun _ _ _ _ _ =>
    ((tandemStmt w lines n m).statements (by omega)).bind fun body hbody _ _ _ =>
      ((Tandem.expect _ hclose (by simp) plain_not_closing).mono (Nat.zero_le _)).bind
        fun finish _ _ _ _ => .pure hbody)

theorem tandem_item (lines : List String) (hfits : Fits 15 n m N M) :
    Tandem w Item.Settled 1 N M (.plain d) (.plain d) (item lines n) (item lines m) := by
  refine .get fun ts us htwin _ _ => ?_
  have hhead : atFunction m us = atFunction n ts := atFunction_tandem htwin (by omega)
  rw [hhead, atType_twin htwin]
  split
  · exact tandem_function hfits
  · exact ((tandemStmt w lines n m).statement (by omega)).map fun s hs => hs

end Parser

/-! ## Ranges of tokens -/

/-- From `ts` to `us` the step `step` is taken again and again. Each time it takes a range of tokens that is not
empty; the list has what was read there, and the range. -/
inductive Taken {α : Type} (step : List Token → α × List Token) :
    List Token → List (α × List Token) → List Token → Prop where
  | nil (ts : List Token) : Taken step ts [] ts
  | cons {ts ws us vs : List Token} {a : α} {xs : List (α × List Token)} (hstep : step ts = (a, us))
      (htakes : Takes ts ws us) (hne : ws ≠ []) (h : Taken step us xs vs) : Taken step ts ((a, ws) :: xs) vs

namespace Taken

variable {α : Type} {step : List Token → α × List Token} {ts us : List Token} {xs ys : List (α × List Token)}

/-- Nothing is left out between the ranges. -/
theorem takes (h : Taken step ts xs us) : Takes ts (xs.flatMap (·.2)) us := by
  induction h with
  | nil ts => exact .nil ts
  | cons hstep htakes hne h ih => exact htakes.trans ih

theorem of_append (h : Taken step ts (xs ++ ys) us) : ∃ vs, Taken step ts xs vs ∧ Taken step vs ys us := by
  induction xs generalizing ts with
  | nil => exact ⟨ts, .nil ts, h⟩
  | cons x xs ih =>
    cases h with
    | cons hstep htakes hne h =>
      obtain ⟨vs, hxs, hys⟩ := ih h
      exact ⟨vs, .cons hstep htakes hne hxs, hys⟩

end Taken

namespace Parser

variable {w : Tails} {n m : Nat} {lines : List String}

/-! ## Items -/

/-- An item that is read, or one that cannot be read and is skipped. -/
def nextItem (lines : List String) (n : Nat) (ts : List Token) : Item × List Token :=
  match item lines n ts with
  | .ok r => r
  | .error e => (.stmt (recover lines e ts).1, (recover lines e ts).2)

theorem items_cons {t : Token} (ht : t.kind ≠ .eof) (k : Nat) (ts : List Token) :
    items lines n (k + 1) (t :: ts) =
      (nextItem lines n (t :: ts)).1 :: items lines n k (nextItem lines n (t :: ts)).2 := by
  obtain ⟨kind, p⟩ := t
  rw [items.eq_def, nextItem]
  cases kind with
  | eof => exact absurd rfl ht
  | _ =>
    dsimp only
    cases item lines n (⟨_, p⟩ :: ts) <;> rfl

theorem items_eof {t : Token} (ht : t.kind = .eof) (k : Nat) (ts : List Token) :
    items lines n k (t :: ts) = [] := by
  cases k with
  | zero => rfl
  | succ k =>
    rw [items.eq_def]
    dsimp only [next]
    rw [ht]

/-- Both lists give the same next item, and leave tokens that are read alike. -/
structure NextAlike (w : Tails) (ts us : List Token) (r s : Item × List Token) : Prop where
  item_eq : s.1 = r.1
  settled : r.1.Settled
  twin : Twin w (.plain 0) r.2 s.2
  shorter : r.2.length < ts.length ∧ s.2.length < us.length
  takes : ∃ ws, Takes ts ws r.2 ∧ ∀ t ∈ ws, t.kind ≠ .eof

theorem NextAlike.of_uses {i : Item} {ts us vs ws : List Token} {d d' : Nat} (hi : i.Settled)
    (htwin : Twin w (.plain 0) vs ws) (huses : Uses 1 d d' ts vs) (hshorter : ws.length + 1 ≤ us.length) :
    NextAlike w ts us (i, vs) (i, ws) := by
  obtain ⟨xs, hxs, heof, -⟩ := huses.takes
  exact ⟨rfl, hi, htwin, ⟨huses.shorter, hshorter⟩, xs, hxs, heof⟩

/-- Behind the end of the tokens nothing matters for the next item. -/
theorem nextItem_tandem (lines : List String) (hw : w.inner = false) {t : Token} (ht : t.kind ≠ .eof) {ts us : List Token}
    (htwin : Twin w (.plain 0) (t :: ts) (t :: us)) (hfits : Fits 15 n m (t :: ts).length (t :: us).length) :
    NextAlike w (t :: ts) (t :: us) (nextItem lines n (t :: ts)) (nextItem lines m (t :: us)) := by
  unfold nextItem
  generalize item lines n (t :: ts) = r, item lines m (t :: us) = s,
    tandem_item lines hfits htwin (Nat.le_refl _) (Nat.le_refl _) = hagreed
  cases hagreed with
  | ok hi htwin' huses hshorter => exact .of_uses hi htwin' huses hshorter
  | @error e he =>
    by_cases hbrace : t.kind = .mark .rbrace
    · -- at top level a brace that closes none is an item of its own
      obtain ⟨k, p⟩ := t
      obtain rfl : k = .mark .rbrace := hbrace
      have hrest : Twin w (.plain 0) ts us := by
        obtain ⟨u, ts', us', hts, hus, hcase⟩ := htwin.head_eq plain_not_closing
        obtain ⟨rfl, rfl⟩ := List.cons.inj hts
        obtain ⟨-, rfl⟩ := List.cons.inj hus
        rcases hcase with ⟨hstops, -⟩ | ⟨-, -, h⟩
        · rcases hstops with hk | ⟨hinner, -⟩
          · cases hk
          · rw [hw] at hinner
            cases hinner
        · exact h
      have hsettled : (Item.stmt (recover lines e (⟨.mark .rbrace, p⟩ :: ts)).1).Settled := ParseError.message_ne he
      exact ⟨rfl, hsettled, hrest, ⟨Nat.lt_succ_self _, Nat.lt_succ_self _⟩, [⟨.mark .rbrace, p⟩], .cons _ (.nil ts),
        fun u hu => List.eq_of_mem_singleton hu ▸ nofun⟩
    · dsimp only
      generalize hr : recover lines e (t :: ts) = r, hr' : recover lines e (t :: us) = r'
      have hrecovered := recover_agreed lines he ht hbrace htwin
      rw [hr, hr'] at hrecovered
      cases hrecovered with
      | @ok s _ _ hs htwin' huses hshorter => exact .of_uses (i := .stmt s) hs htwin' huses hshorter

/-- The ranges of the items follow upon each other up to the end of the file, and tokens that are read alike have the
same items. -/
theorem items_tandem (lines : List String) (hw : w.inner = false) {k k' : Nat} {ts us : List Token} (htwin : Twin w (.plain 0) ts us)
    (hfits : Fits 15 n m ts.length us.length) (hk : ts.length < k) (hk' : us.length < k') :
    ∃ xs t, Taken (nextItem lines n) ts xs (t :: w.left) ∧ t.kind = .eof ∧ items lines n k ts = xs.map (·.1) ∧
      items lines m k' us = xs.map (·.1) ∧ ∀ x ∈ xs, x.1.Settled := by
  induction k generalizing k' ts us with
  | zero => exact absurd hk (Nat.not_lt_zero _)
  | succ k ih =>
    obtain ⟨k', rfl⟩ : ∃ j, k' = j + 1 := ⟨k' - 1, by omega⟩
    obtain ⟨t, ts, us, rfl, rfl, hcase⟩ := htwin.head_eq plain_not_closing
    by_cases ht : t.kind = .eof
    · obtain ⟨-, rfl, rfl⟩ | ⟨hne, -⟩ := hcase
      · exact ⟨[], t, .nil _, ht, items_eof ht _ _, items_eof ht _ _, nofun⟩
      · exact absurd ht hne
    · have hnext := nextItem_tandem lines hw ht htwin hfits
      rw [items_cons ht, items_cons ht]
      obtain ⟨hlt, hlt'⟩ := hnext.shorter
      obtain ⟨ws, hws, -⟩ := hnext.takes
      obtain ⟨xs, u, htaken, hu, hitems, hitems', hsettled⟩ := ih hnext.twin (by omega) (by omega)
        (show (nextItem lines m (t :: us)).2.length < k' by omega)
      have hne : ws ≠ [] := by
        rintro rfl
        rw [hws.eq_of_nil] at hlt
        exact absurd hlt (Nat.lt_irrefl _)
      refine ⟨((nextItem lines n (t :: ts)).1, ws) :: xs, u, .cons rfl hws hne htaken, hu, ?_, ?_, ?_⟩
      · rw [hitems]
        rfl
      · rw [hitems', hnext.item_eq]
        rfl
      · exact List.forall_mem_cons.mpr ⟨hnext.settled, hsettled⟩

end Parser

end CallTrace.Surface
