import CallTrace.Proofs.Parser.Coverage

/-! # Bodies between braces

* `Parser.statements_taken`: the ranges of the statements inside of braces follow upon each other.
* `Parser.statements_local`: what stands behind a brace that closes none before it does not matter.
* `parse_function_braces`: a body ends with the brace that matches the one before it, unless a `using` directive
  reaches over a brace.
* `parse_using_without_semicolon`: one that does takes the next function into the body.
-/

namespace CallTrace.Surface
set_option autoImplicit false

namespace Parser

variable {lines : List String} {n m : Nat} {ts us vs : List Token}

/-! ## Statements one after another -/

/-- The ranges of the statements inside of braces follow upon each other up to the end of the braces. -/
theorem statements_taken (hsame : Twin ⟨false, false, [], []⟩ (.plain 0) ts ts)
    (hfits : Fits 15 n m ts.length ts.length) {ss : List Stmt} (h : statements lines m ts = .ok (ss, us)) :
    ∃ xs, Taken (nextStmt lines n) ts xs us ∧ ss = xs.map (·.1) := by
  induction m generalizing ts ss with
  | zero => exact absurd hfits.2 (by omega)
  | succ m ih =>
    obtain ⟨t, ts, -, rfl, -, -⟩ := hsame.head_eq plain_not_closing
    by_cases hstop : t.kind = .eof ∨ t.kind = .mark .rbrace
    · rw [statements_stop hstop] at h
      cases h
      exact ⟨[], .nil _, rfl⟩
    · obtain ⟨ht, hbrace⟩ := not_or.mp hstop
      have hnext := (tandemStmt ⟨false, false, [], []⟩ lines n m).next hsame ht hbrace (by omega)
      rw [statements_cons ht hbrace] at h
      generalize hr : nextStmt lines n (t :: ts) = r, nextStmt lines m (t :: ts) = r' at hnext h
      cases hnext with
      | @ok s vs ws hs htwin huses hshorter =>
        obtain rfl := htwin.eq rfl rfl
        have hlength := huses.shorter
        dsimp only at h
        generalize hmore : statements lines m ws = rs at h
        cases rs with
        | error e => cases h
        | ok rs =>
          cases h
          obtain ⟨xs, hxs, hss⟩ := ih htwin (by omega) hmore
          obtain ⟨xs₁, htakes, -, -⟩ := huses.takes
          have hne : xs₁ ≠ [] := by
            rintro rfl
            rw [htakes.eq_of_nil] at hlength
            exact absurd hlength (Nat.not_succ_le_self _)
          exact ⟨(s, xs₁) :: xs, .cons hr htakes hne hxs, congrArg (s :: ·) hss⟩

/-! ## Braces that close none before them -/

/-- Tokens up to a brace that closes none of them are read alike whatever stands behind it. -/
theorem twin_of_braces {splits : Bool} {p : Pos} {body after after' : List Token} {σ : Spot}
    (heof : ∀ t ∈ body, t.kind ≠ .eof) (hdepth : braceDepth σ.braces body = some 0)
    (hclosed : usingClosed σ.inUsing (body ++ [⟨.mark .rbrace, p⟩])) :
    Twin ⟨true, splits, after, after'⟩ σ (body ++ ⟨.mark .rbrace, p⟩ :: after)
      (body ++ ⟨.mark .rbrace, p⟩ :: after') := by
  induction body generalizing σ with
  | nil =>
    have husing : σ.inUsing = false := by
      rw [List.nil_append, usingClosed, Bool.and_eq_true] at hclosed
      simpa [isBrace] using hclosed.1
    exact .stop (w := ⟨true, splits, after, after'⟩) (.inr ⟨rfl, rfl, Option.some.inj hdepth, husing⟩)
  | cons t body ih =>
    obtain ⟨ht, heof⟩ := List.forall_mem_cons.mp heof
    rw [List.cons_append, usingClosed, Bool.and_eq_true] at hclosed
    obtain ⟨husing, hclosed⟩ := hclosed
    rw [braceDepth] at hdepth
    obtain ⟨d, hstep, hdepth⟩ := Option.bind_eq_some_iff.mp hdepth
    have hbraces : (σ.step t.kind).braces = d := by
      show (braceStep σ.braces t.kind).getD 0 = d
      rw [hstep]
      rfl
    refine .cons ht (fun _ hbrace => ⟨?_, fun hk hzero => ?_⟩) (ih heof (hbraces ▸ hdepth) hclosed)
    · rw [hbrace, Bool.and_true] at husing
      simpa using husing
    · rw [hk, hzero] at hstep
      cases hstep

/-- The inside of braces is read from the tokens before its closing brace alone. -/
theorem statements_local {p : Pos} {body after after' : List Token} {ss : List Stmt}
    (heof : ∀ t ∈ body, t.kind ≠ .eof) (hdepth : braceDepth 0 body = some 0)
    (hclosed : usingClosed false (body ++ [⟨.mark .rbrace, p⟩]))
    (hn : fuelFor (body ++ ⟨.mark .rbrace, p⟩ :: after) ≤ n)
    (hm : fuelFor (body ++ ⟨.mark .rbrace, p⟩ :: after') ≤ m)
    (h : statements lines n (body ++ ⟨.mark .rbrace, p⟩ :: after) = .ok (ss, ⟨.mark .rbrace, p⟩ :: after)) :
    statements lines m (body ++ ⟨.mark .rbrace, p⟩ :: after') = .ok (ss, ⟨.mark .rbrace, p⟩ :: after') := by
  have htwin : Twin ⟨true, false, after, after'⟩ (.plain 0) (body ++ ⟨.mark .rbrace, p⟩ :: after)
      (body ++ ⟨.mark .rbrace, p⟩ :: after') := twin_of_braces heof hdepth hclosed
  unfold fuelFor at hn hm
  have hagreed := (tandemStmt _ lines n m).statements ⟨by omega, by omega⟩ htwin (Nat.le_refl _) (Nat.le_refl _)
  rw [h] at hagreed
  generalize statements lines m (body ++ ⟨.mark .rbrace, p⟩ :: after') = r at hagreed
  cases hagreed with
  | ok hss hrest huses hshorter =>
    cases hrest with
    | stop hstops => rfl
    | cons heof hallow hrest => exact absurd rfl ((hallow rfl rfl).2 rfl)

/-- What the inside of braces takes, from the tokens `body` before its closing brace. -/
structure Inside (lines : List String) (n : Nat) (ss : List Stmt) (body : List Token) (p : Pos) (after : List Token) :
    Prop where
  /-- The ranges of the statements follow upon each other up to the closing brace, and none of them is empty. -/
  taken : ∃ xs, Taken (nextStmt lines n) (body ++ ⟨.mark .rbrace, p⟩ :: after) xs (⟨.mark .rbrace, p⟩ :: after) ∧
    ss = xs.map (·.1)
  /-- If no `using` reaches over a brace, every brace inside closes one inside, and all are closed. -/
  matched : usingClosed false body → braceDepth 0 body = some 0
  /-- If no `using` reaches over a brace, what stands behind the closing brace does not matter. -/
  enclosed : usingClosed false (body ++ [⟨.mark .rbrace, p⟩]) → ∀ after' m,
    fuelFor (body ++ ⟨.mark .rbrace, p⟩ :: after') ≤ m →
    statements lines m (body ++ ⟨.mark .rbrace, p⟩ :: after') = .ok (ss, ⟨.mark .rbrace, p⟩ :: after')

/-- Statements that end before a brace are the inside of braces. -/
theorem inside_of_statements (hsame : Twin ⟨false, false, [], []⟩ (.plain 0) ts ts) (hn : fuelFor ts ≤ n)
    {ss : List Stmt} {p : Pos} (h : statements lines n ts = .ok (ss, ⟨.mark .rbrace, p⟩ :: us)) :
    ∃ body, ts = body ++ ⟨.mark .rbrace, p⟩ :: us ∧ Inside lines n ss body p us := by
  have hfuel : 16 * ts.length + 15 ≤ n := Nat.le_trans (Nat.le_succ _) hn
  have hagreed := (tandemStmt _ lines n n).statements ⟨hfuel, hfuel⟩ hsame (Nat.le_refl _) (Nat.le_refl _)
  rw [h] at hagreed
  cases hagreed with
  | ok _ _ huses _ =>
    obtain ⟨ws, htakes, heof, hdepth⟩ := huses.takes
    obtain ⟨body, rfl, hsplits⟩ := htakes.eq_append fun t ht => Option.some.inj ht ▸ nofun
    have hkinds : ∀ t ∈ body, t.kind ≠ .eof := hsplits.forall_kind (P := (· ≠ .eof)) (fun _ => nofun) heof
    have hmatched (hclosed : usingClosed false body) : braceDepth 0 body = some 0 := by
      rw [← hsplits.usingClosed_eq] at hclosed
      rw [← hsplits.braceDepth_eq]
      refine (hdepth hclosed).resolve_left fun ⟨t, vs, hvs, ht⟩ => ?_
      obtain ⟨rfl, -⟩ := List.cons.inj hvs
      cases ht
    exact ⟨body, rfl, statements_taken hsame ⟨hfuel, hfuel⟩ h, hmatched, fun hclosed after' m hm =>
      statements_local hkinds (hmatched (usingClosed_left hclosed)) hclosed hn hm h⟩

/-! ## Functions -/

/-- A function among the items is read as one. -/
theorem function_of_nextItem {f : Function} (h : nextItem lines n ts = (.function f, us)) :
    atType ts ∧ function lines n ts = .ok (.function f, us) := by
  have hitem : item lines n ts = .ok (.function f, us) := by
    unfold nextItem at h
    split at h
    · next hr => rw [hr, h]
    · cases h
  have hcases : item lines n ts =
      (if atType ts && atFunction n ts then function lines n else .stmt <$> statement lines n) ts := rfl
  rw [hcases] at hitem
  split at hitem
  · next hhead => exact ⟨(Bool.and_eq_true _ _ ▸ hhead).1, hitem⟩
  · have hstmt : (Item.stmt <$> statement lines n) ts =
        Except.bind (statement lines n ts) fun r => .ok (.stmt r.1, r.2) := rfl
    rw [hstmt] at hitem
    generalize statement lines n ts = r at hitem
    cases r <;> cases hitem

theorem head_ne_gt_of_atType (h : atType ts) : ∀ t ∈ ts.head?, t.kind ≠ .mark .gt := by
  rintro t ht hk
  obtain ⟨us, rfl⟩ := List.head?_eq_some_iff.mp ht
  obtain ⟨k, p⟩ := t
  obtain rfl : k = _ := hk
  cases h

end Parser

open Surface.Parser (fuelFor Inside)

/-- The brace that ends the body of a function. The tokens have a head without braces, an opening brace, the body and
the closing brace where the function ends. The statements take all tokens between the two braces and none beside. If no
`using` reaches over a brace, the closing brace is the one that matches the opening brace. -/
theorem parse_function_braces (source : String) {is js : List Item} {f : Function}
    (h : parse source = is ++ .function f :: js) :
    ∃ before head p body after,
      Scan.scan source = before ++ (head ++ ⟨.mark .lbrace, p⟩ :: (body ++ ⟨.mark .rbrace, f.finish⟩ :: after)) ∧
      (∀ t ∈ head, isBrace t.kind = false) ∧
      Inside (Text.lines source) (fuelFor (Scan.scan source)) f.body body f.finish after := by
  obtain ⟨ks, q, hscan, hks⟩ := Scan.scan_ends source
  obtain ⟨xs, q', htaken, hitems, -⟩ := parse_taken source
  -- the tokens where the item begins
  obtain ⟨as, bs, rfl, -, hbs⟩ := List.map_eq_append_iff.mp (hitems.symm.trans h)
  obtain ⟨x, cs, rfl, hx, -⟩ := List.map_eq_cons_iff.mp hbs
  obtain ⟨ts, has, hcons⟩ := htaken.of_append
  cases hcons with
  | @cons _ ws us _ i _ hstep htakes hne hrest =>
    obtain rfl : i = .function f := hx
    obtain ⟨htype, hfunction⟩ := Parser.function_of_nextItem hstep
    obtain ⟨before, hbefore, -⟩ := has.takes.eq_append (Parser.head_ne_gt_of_atType htype)
    -- its head, and what stands behind the opening brace
    obtain ⟨vs, p, ⟨hs, hhead, hplain, -⟩, hbody⟩ := Parser.function_ok hfunction
    obtain ⟨head, rfl, hsplits⟩ := hhead.eq_append fun t ht => Option.some.inj ht ▸ nofun
    have hsource : Scan.scan source = (before ++ (head ++ [⟨.mark .lbrace, p⟩])) ++ vs := by
      rw [hbefore]
      simp
    have hvs : vs ≠ [] := by
      rintro rfl
      rw [show Parser.statements (Text.lines source) (fuelFor (Scan.scan source)) [] = .ok ([], []) from rfl] at hbody
      exact nomatch (Prod.mk.inj (Except.ok.inj hbody)).2
    have hsame : Twin ⟨false, false, [], []⟩ (.plain 0) vs vs := by
      obtain ⟨ds, rfl, hds⟩ := eq_concat_of_append hvs (hscan.symm.trans hsource)
      exact .of_append rfl rfl (fun t ht => hks t (hds ▸ List.mem_append_right _ ht)) (.plain 0)
    have hfuel : fuelFor vs ≤ fuelFor (Scan.scan source) := by
      have hlength := congrArg List.length hsource
      rw [List.length_append] at hlength
      unfold fuelFor
      omega
    obtain ⟨body, rfl, hinside⟩ := Parser.inside_of_statements hsame hfuel hbody
    have hkinds : ∀ t ∈ head, isBrace t.kind = false :=
      hsplits.forall_kind (P := (isBrace · = false)) (fun _ => rfl) fun t ht => (hplain t ht).2
    exact ⟨before, head, p, body, us, hbefore, hkinds, hinside⟩

/-- A text that is a single item. -/
theorem parse_of_item {source : String} {t : Token} {ts : List Token} {i : Item} {p : Pos}
    (hscan : Scan.scan source = t :: ts) (ht : t.kind ≠ .eof)
    (hitem : ∀ n, Parser.item (Text.lines source) (n + 20) (t :: ts) = .ok (i, [⟨.eof, p⟩])) : parse source = [i] := by
  obtain ⟨n, hn⟩ : ∃ n, fuelFor (t :: ts) = n + 20 := by
    refine ⟨16 * ts.length + 12, ?_⟩
    rw [fuelFor, List.length_cons]
    omega
  unfold parse
  dsimp only
  rw [hscan, Parser.items_cons ht, Parser.nextItem, hn, hitem]
  exact congrArg (i :: ·) (Parser.items_eof rfl _ _)

/-- A body with a directive, and with a block in which a statement cannot be read. -/
theorem parse_function_braces_block :
    let source := "void f() { using x; { y z } }"
    ∃ f, parse source = [] ++ .function f :: [] ∧ f.finish = ⟨1, 29⟩ ∧
      ∃ before head p body after,
        Scan.scan source = before ++ (head ++ ⟨.mark .lbrace, p⟩ :: (body ++ ⟨.mark .rbrace, f.finish⟩ :: after)) ∧
        (∀ t ∈ head, isBrace t.kind = false) ∧
        Inside (Text.lines source) (fuelFor (Scan.scan source)) f.body body f.finish after := by
  intro source
  let ts : List Token := [⟨.word .void, ⟨1, 1⟩⟩, ⟨.name "f", ⟨1, 6⟩⟩, ⟨.mark .lparen, ⟨1, 7⟩⟩, ⟨.mark .rparen, ⟨1, 8⟩⟩,
    ⟨.mark .lbrace, ⟨1, 10⟩⟩, ⟨.word .usingWord, ⟨1, 12⟩⟩, ⟨.name "x", ⟨1, 18⟩⟩, ⟨.mark .semicolon, ⟨1, 19⟩⟩,
    ⟨.mark .lbrace, ⟨1, 21⟩⟩, ⟨.name "y", ⟨1, 23⟩⟩, ⟨.name "z", ⟨1, 25⟩⟩, ⟨.mark .rbrace, ⟨1, 27⟩⟩,
    ⟨.mark .rbrace, ⟨1, 29⟩⟩, ⟨.eof, ⟨1, 30⟩⟩]
  have hscan : Scan.scan source = ts := by
    show Scan.scan "void f() { using x; { y z } }" = ts
    cbv
  obtain ⟨ss, hitem⟩ : ∃ ss, ∀ n, Parser.item (Text.lines source) (n + 20) ts =
      .ok (.function ⟨"f", .scalar .void false false, [], ss, ⟨1, 6⟩, ⟨1, 29⟩⟩, [⟨.eof, ⟨1, 30⟩⟩]) :=
    ⟨_, fun n => rfl⟩
  have hparse : parse source =
      [] ++ .function ⟨"f", .scalar .void false false, [], ss, ⟨1, 6⟩, ⟨1, 29⟩⟩ :: [] :=
    parse_of_item hscan (by simp) hitem
  exact ⟨_, hparse, rfl, parse_function_braces source hparse⟩

/-- A directive without a semicolon reaches over the end of its function. The brace that ends the next function ends
this one too, though it closes no brace of its body. -/
theorem parse_using_without_semicolon :
    let source := "void f() { using namespace std }\nvoid g() { int y; }"
    ∃ f before p body after, parse source = [.function f] ∧
      Scan.scan source = before ++ ⟨.mark .lbrace, p⟩ :: (body ++ ⟨.mark .rbrace, f.finish⟩ :: after) ∧
      (∀ t ∈ before, isBrace t.kind = false) ∧ braceDepth 0 body = none := by
  intro source
  let before : List Token := [⟨.word .void, ⟨1, 1⟩⟩, ⟨.name "f", ⟨1, 6⟩⟩, ⟨.mark .lparen, ⟨1, 7⟩⟩,
    ⟨.mark .rparen, ⟨1, 8⟩⟩]
  let body : List Token := [⟨.word .usingWord, ⟨1, 12⟩⟩, ⟨.name "namespace", ⟨1, 18⟩⟩, ⟨.name "std", ⟨1, 28⟩⟩,
    ⟨.mark .rbrace, ⟨1, 32⟩⟩, ⟨.word .void, ⟨2, 1⟩⟩, ⟨.name "g", ⟨2, 6⟩⟩, ⟨.mark .lparen, ⟨2, 7⟩⟩,
    ⟨.mark .rparen, ⟨2, 8⟩⟩, ⟨.mark .lbrace, ⟨2, 10⟩⟩, ⟨.word .int, ⟨2, 12⟩⟩, ⟨.name "y", ⟨2, 16⟩⟩,
    ⟨.mark .semicolon, ⟨2, 17⟩⟩]
  let f : Function := ⟨"f", .scalar .void false false, [], [.usingDirective ⟨1, 12⟩], ⟨1, 6⟩, ⟨2, 19⟩⟩
  have hscan : Scan.scan source = before ++ ⟨.mark .lbrace, ⟨1, 10⟩⟩ ::
      (body ++ ⟨.mark .rbrace, ⟨2, 19⟩⟩ :: [⟨.eof, ⟨2, 20⟩⟩]) := by
    show Scan.scan "void f() { using namespace std }\nvoid g() { int y; }" = _
    cbv
  have hitem (n : Nat) : Parser.item (Text.lines source) (n + 20) (before ++ ⟨.mark .lbrace, ⟨1, 10⟩⟩ ::
      (body ++ ⟨.mark .rbrace, ⟨2, 19⟩⟩ :: [⟨.eof, ⟨2, 20⟩⟩])) = .ok (.function f, [⟨.eof, ⟨2, 20⟩⟩]) := rfl
  have hparse : parse source = [.function f] := parse_of_item hscan (by simp) hitem
  refine ⟨f, before, ⟨1, 10⟩, body, [⟨.eof, ⟨2, 20⟩⟩], hparse, hscan, ?_, rfl⟩
  simp [before, isBrace]

end CallTrace.Surface
