import CallTrace.Token.Scan

/-! # Tokens of a text that starts further down

Reading tokens uses the place where it starts for nothing but the places of the tokens.

* `Pos.down`: a place, some lines further down.
* `Tokens.Moved k`: the same tokens `k` lines further down, up to the end of the file.
* `Scan.Advances`: reading a token consumes text, and gives no end of the file.
* `SkippedLine`, `header`: lines that hold no token, and a text made of such lines.
* `Scan.scan_header`: the tokens of a text with a header are those of the text, as many lines further down
  as the header has.
-/

namespace CallTrace
set_option autoImplicit false

/-! ## Places -/

/-- A place, `k` lines further down. -/
def Pos.down (k : Nat) (p : Pos) : Pos := ⟨p.line + k, p.column⟩

@[simp] theorem Pos.next_down (k : Nat) (p : Pos) (c : Char) : (p.down k).next c = (p.next c).down k := by
  unfold next down
  split
  · exact congrArg (Pos.mk · 1) (Nat.add_right_comm ..)
  · rfl

@[simp] theorem Pos.right_down (k : Nat) (p : Pos) (n : Nat) : (p.down k).right n = (p.right n).down k := rfl

theorem Pos.one_le_line (p : Pos) : 1 ≤ (p.down 1).line := Nat.le_add_left ..

def Token.down (k : Nat) (t : Token) : Token := ⟨t.kind, t.pos.down k⟩

/-- The same tokens `k` lines further down. They end with the end of the file, and stand on lines that are
counted from one. -/
inductive Tokens.Moved (k : Nat) : List Token → List Token → Prop where
  | eof {p : Pos} (hp : 1 ≤ p.line) : Moved k [⟨.eof, p⟩] [⟨.eof, p.down k⟩]
  | cons {kind : Token.Kind} {p : Pos} {ts us : List Token} (hkind : kind ≠ .eof) (hp : 1 ≤ p.line)
      (h : Moved k ts us) : Moved k (⟨kind, p⟩ :: ts) (⟨kind, p.down k⟩ :: us)

theorem Tokens.Moved.length_eq {k : Nat} {ts us : List Token} (h : Moved k ts us) : us.length = ts.length := by
  induction h with
  | eof _ => rfl
  | cons _ _ _ ih => exact congrArg (· + 1) ih

namespace Scan

variable {α : Type} {k : Nat}

/-- What has been read, with its places `k` lines further down; `place` moves those in its value. -/
def Read.down (k : Nat) (place : α → α) (r : Read α) : Read α := ⟨place r.value, r.rest, r.pos.down k⟩

def Gap.down (k : Nat) : Gap → Gap
  | .blank => .blank
  | .line => .line
  | .block opened => .block (opened.down k)

/-! ## Every reader takes its place along -/

theorem skip_down (gap : Gap) (cs : List Char) (p : Pos) :
    skip (gap.down k) cs (p.down k) = (skip gap cs p).down k (Option.map (Pos.down k)) := by
  fun_induction skip gap cs p with
  | case1 => rfl
  | case2 gap p hgap => cases gap <;> first | rfl | exact absurd rfl (hgap _)
  | case3 c cs p ih =>
    rw [← ih, Gap.down, skip, Pos.next_down]
    split <;> rfl
  | case4 opened cs p ih => exact ih
  | case5 opened c cs p hend ih => simpa only [Gap.down, skip, Pos.next_down] using ih
  | case6 cs p ih => exact ih
  | case7 cs p ih => exact ih
  | case8 c cs p hline hblock hc ih => simpa only [Gap.down, skip, hc, if_true, Pos.next_down] using ih
  | case9 cs p hline hblock hc ih =>
    rw [Gap.down, skip, if_neg hc, if_pos rfl, Pos.next_down]
    · exact ih
    · exact hline
    · exact hblock
  | case10 c cs p hline hblock hc hhash =>
    simp only [Gap.down, skip, hc, hhash, if_false, Read.down, Option.map_none, Bool.false_eq_true]

theorem stringBody_down (done cs : List Char) (p : Pos) :
    stringBody done cs (p.down k) = (stringBody done cs p).down k id := by
  fun_induction stringBody done cs p with
  | case1 => rfl
  | case2 done c cs p d hd ih => simpa only [stringBody, hd, Pos.right_down, Pos.next_down] using ih
  | case3 done c cs p hd => simp only [stringBody, hd, Pos.right_down, Pos.next_down, Read.down, id]
  | case4 | case5 | case6 | case7 => simp_all [stringBody, Read.down]

theorem charEnd_down (c? : Option Char) (cs : List Char) (p : Pos) :
    charEnd c? cs (p.down k) = (charEnd c? cs p).down k id := by
  unfold charEnd
  split <;> rfl

theorem charBody_down (cs : List Char) (p : Pos) :
    charBody cs (p.down k) = (charBody cs p).down k id := by
  fun_cases charBody cs p with
  | case1 => exact charEnd_down none [] p
  | case2 => exact charEnd_down none [] (p.right 1)
  | case3 c cs => rw [← charEnd_down, charBody, Pos.right_down, Pos.next_down]
  | case4 c cs hend hescape => rw [← charEnd_down, charBody, Pos.next_down] <;> assumption

theorem number_down (cs : List Char) (p : Pos) : number cs (p.down k) = (number cs p).down k id := by
  unfold number
  dsimp only
  split <;> rfl

theorem markKind_down (c : Char) (cs : List Char) (p : Pos) :
    markKind c cs (p.down k) = (markKind c cs p).down k id := by
  unfold markKind
  split <;> rfl

/-- Reading a name needs no more fuel than there are characters. -/
theorem name_down {fuel fuel' : Nat} {cs : List Char} (h : cs.length ≤ fuel) (h' : cs.length ≤ fuel')
    (p : Pos) : name fuel' cs (p.down k) = (name fuel cs p).down k (Token.down k) := by
  have hshort (fuel : Nat) (p : Pos) : name fuel [] p = ⟨⟨nameKind "", p⟩, [], p⟩ := by
    cases fuel <;> unfold name <;> simp [Pos.right]
  induction fuel generalizing fuel' cs p with
  | zero =>
    rw [List.eq_nil_of_length_eq_zero (Nat.le_zero.1 h), hshort, hshort]
    rfl
  | succ fuel ih =>
    cases fuel' with
    | zero =>
      rw [List.eq_nil_of_length_eq_zero (Nat.le_zero.1 h'), hshort, hshort]
      rfl
    | succ fuel' =>
      have hrest : (cs.dropWhile inName).length ≤ cs.length := (List.dropWhile_suffix _).length_le
      unfold name
      dsimp only
      generalize (String.ofList (cs.takeWhile inName) == "std") = std, cs.dropWhile inName = r at hrest ⊢
      split
      · next fuel₁ c t hfuel =>
        cases hfuel
        dsimp only [List.length_cons] at hrest
        split
        · have hle : (c :: t).length ≤ fuel := by rw [List.length_cons]; omega
          have hle' : (c :: t).length ≤ fuel' := by rw [List.length_cons]; omega
          exact ih hle hle' ((p.right _).right 2)
        · rw [Pos.right_down, Pos.right_down, Pos.next_down]
          rfl
      · rfl
      · next hlast hmore =>
        split
        · exact absurd rfl (hmore _ _ _ rfl rfl)
        · exact absurd rfl (hlast rfl)
        · rfl

theorem lexeme_down {fuel fuel' : Nat} (c : Char) {cs : List Char} (h : cs.length < fuel)
    (h' : cs.length < fuel') (p : Pos) :
    lexeme fuel' c cs (p.down k) = (lexeme fuel c cs p).down k (Token.down k) := by
  unfold lexeme
  dsimp only
  rw [Pos.right_down, stringBody_down, charBody_down, number_down, markKind_down, name_down h h']
  repeat' split
  all_goals rfl

/-! ## Every reader advances -/

/-- A reader leaves no more than a given text, and what it gives is no end of the file. -/
structure Advances (r : Read Token.Kind) (cs : List Char) : Prop where
  rest_le : r.rest.length ≤ cs.length
  kind_ne : r.value ≠ .eof

theorem skip_rest_le (gap : Gap) (cs : List Char) (p : Pos) : (skip gap cs p).rest.length ≤ cs.length := by
  fun_induction skip gap cs p with
  | case1 | case2 | case10 => exact Nat.le_refl _
  | case3 c cs p ih | case5 _ c cs p _ ih => exact Nat.le_succ_of_le ih
  | case8 c cs p _ _ _ ih => exact Nat.le_succ_of_le ih
  | case9 cs p _ _ _ ih => exact Nat.le_succ_of_le ih
  | case4 _ cs p ih | case6 cs p ih | case7 cs p ih => exact Nat.le_succ_of_le (Nat.le_succ_of_le ih)

theorem stringBody_advances (done cs : List Char) (p : Pos) : Advances (stringBody done cs p) cs := by
  fun_induction stringBody done cs p with
  | case2 done c cs p d hd ih => exact ⟨Nat.le_succ_of_le (Nat.le_succ_of_le ih.rest_le), ih.kind_ne⟩
  | case7 done c cs p _ _ _ _ ih => exact ⟨Nat.le_succ_of_le ih.rest_le, ih.kind_ne⟩
  | _ => exact ⟨by simp <;> omega, nofun⟩

theorem charEnd_advances (c? : Option Char) (cs : List Char) (p : Pos) : Advances (charEnd c? cs p) cs := by
  unfold charEnd
  split
  · exact ⟨Nat.le_succ _, nofun⟩
  · exact ⟨Nat.le_refl _, nofun⟩

theorem charBody_advances (cs : List Char) (p : Pos) : Advances (charBody cs p) cs := by
  have hmore {c? : Option Char} {cs ds : List Char} {p : Pos} (h : cs.length ≤ ds.length) :
      Advances (charEnd c? cs p) ds :=
    ⟨Nat.le_trans (charEnd_advances c? cs p).rest_le h, (charEnd_advances c? cs p).kind_ne⟩
  fun_cases charBody cs p with
  | _ => exact hmore (by simp <;> omega)

theorem intLiteral_ne_eof (digits : List Char) : intLiteral digits ≠ .eof := by
  unfold intLiteral
  split <;> nofun

theorem nameKind_ne_eof (s : String) : nameKind s ≠ .eof := by
  unfold nameKind
  split <;> nofun

theorem markKind_advances (c : Char) (cs : List Char) (p : Pos) : Advances (markKind c cs p) cs := by
  unfold markKind
  split
  · exact ⟨by simp, nofun⟩
  · refine ⟨Nat.le_refl _, ?_⟩
    dsimp only
    split
    · nofun
    · split <;> nofun

theorem dropWhile_length_le (p : Char → Bool) (cs : List Char) : (cs.dropWhile p).length ≤ cs.length :=
  (List.dropWhile_suffix p).length_le

/-- A number starts with a digit or with a point. -/
theorem number_advances {c : Char} (cs : List Char) (h : Text.isDigit c ∨ c = '.') (p : Pos) :
    Advances (number (c :: cs) p) cs := by
  have hrest : ((c :: cs).dropWhile Text.isDigit).length ≤ cs.length ∨
      (c :: cs).dropWhile Text.isDigit = '.' :: cs := by
    rw [List.dropWhile_cons]
    rcases h with h | rfl
    · rw [if_pos h]
      exact .inl (dropWhile_length_le ..)
    · exact .inr (if_neg (by decide))
  unfold number
  dsimp only
  generalize (c :: cs).dropWhile Text.isDigit = r at hrest ⊢
  split
  · next t =>
    refine ⟨Nat.le_trans (dropWhile_length_le ..) (Nat.le_trans (dropWhile_length_le ..) ?_), nofun⟩
    rcases hrest with hrest | hrest
    · exact Nat.le_of_succ_le hrest
    · cases hrest
      exact Nat.le_refl _
  · next hpoint =>
    refine ⟨Nat.le_trans (dropWhile_length_le ..) ?_, intLiteral_ne_eof _⟩
    exact hrest.resolve_right fun h => hpoint _ h

theorem dropWhile_inName_le {c : Char} (cs : List Char) (h : startsName c) :
    ((c :: cs).dropWhile inName).length ≤ cs.length := by
  rw [List.dropWhile_cons, if_pos (by rw [inName, h, Bool.true_or])]
  exact dropWhile_length_le ..

theorem name_advances (fuel : Nat) {c : Char} (cs : List Char) (h : startsName c) (p : Pos) :
    (name fuel (c :: cs) p).rest.length ≤ cs.length ∧ (name fuel (c :: cs) p).value.kind ≠ .eof := by
  induction fuel generalizing c cs p with
  | zero =>
    have hrest := dropWhile_inName_le cs h
    unfold name
    dsimp only
    generalize (String.ofList ((c :: cs).takeWhile inName) == "std") = std,
      (c :: cs).dropWhile inName = r at hrest ⊢
    split
    · next hfuel => cases hfuel
    · exact ⟨Nat.zero_le _, nofun⟩
    · exact ⟨hrest, nameKind_ne_eof _⟩
  | succ fuel ih =>
    have hrest := dropWhile_inName_le cs h
    unfold name
    dsimp only
    generalize (String.ofList ((c :: cs).takeWhile inName) == "std") = std,
      (c :: cs).dropWhile inName = r at hrest ⊢
    split
    · next fuel₁ d t hfuel =>
      cases hfuel
      dsimp only [List.length_cons] at hrest
      split
      · next hd => exact ⟨Nat.le_trans (ih t hd _).1 (by omega), (ih t hd _).2⟩
      · exact ⟨by dsimp only; omega, nofun⟩
    · exact ⟨Nat.zero_le _, nofun⟩
    · exact ⟨hrest, nameKind_ne_eof _⟩

theorem lexeme_advances (fuel : Nat) (c : Char) (cs : List Char) (p : Pos) :
    (lexeme fuel c cs p).rest.length ≤ cs.length ∧ (lexeme fuel c cs p).value.kind ≠ .eof := by
  have hhere {r : Read Token.Kind} (h : Advances r cs) :
      (Read.mk (⟨r.value, p⟩ : Token) r.rest r.pos).rest.length ≤ cs.length ∧
        (Read.mk (⟨r.value, p⟩ : Token) r.rest r.pos).value.kind ≠ .eof := ⟨h.rest_le, h.kind_ne⟩
  unfold lexeme
  dsimp only
  split
  · exact hhere (stringBody_advances ..)
  split
  · exact hhere (charBody_advances ..)
  split
  · next h =>
    have hfirst : Text.isDigit c ∨ c = '.' := by
      rcases Bool.or_eq_true _ _ ▸ h with h | h
      · exact .inl h
      · exact .inr (of_decide_eq_true (Bool.and_eq_true _ _ ▸ h).1)
    exact hhere (number_advances cs hfirst p)
  split
  · next h => exact name_advances fuel cs h p
  · exact hhere (markKind_advances ..)

/-! ## Whole texts -/

/-- Tokens that stand behind the comment left open before them, if there is one. -/
theorem moved_behind (opened : Option Pos) {ts us : List Token} (h : Tokens.Moved k ts us) :
    Tokens.Moved k
      ((match opened.map (Pos.down 1) with
        | some p => [⟨.invalid .unterminatedComment, p⟩]
        | none => []) ++ ts)
      ((match (opened.map (Pos.down 1)).map (Pos.down k) with
        | some p => [⟨.invalid .unterminatedComment, p⟩]
        | none => []) ++ us) := by
  cases opened with
  | none => exact h
  | some p => exact .cons nofun (Pos.one_le_line p) h

/-- With fuel for every character, the fuel does not matter. -/
theorem tokensFrom_moved {fuel fuel' : Nat} {cs : List Char} (h : cs.length < fuel)
    (h' : cs.length < fuel') (p : Pos) :
    Tokens.Moved k (tokensFrom fuel cs (p.down 1)) (tokensFrom fuel' cs ((p.down 1).down k)) := by
  induction fuel generalizing fuel' cs p with
  | zero => exact absurd h (Nat.not_lt_zero _)
  | succ fuel ih =>
    obtain ⟨fuel', rfl⟩ : ∃ n, fuel' = n + 1 := ⟨fuel' - 1, by omega⟩
    have hgap : skip .blank cs (p.down 1) = (skip .blank cs p).down 1 (Option.map (Pos.down 1)) :=
      skip_down .blank cs p
    have hgap' : skip .blank cs ((p.down 1).down k) =
        ((skip .blank cs p).down 1 (Option.map (Pos.down 1))).down k (Option.map (Pos.down k)) :=
      hgap ▸ skip_down .blank cs (p.down 1)
    have hlen := skip_rest_le .blank cs p
    unfold tokensFrom
    rw [hgap', hgap]
    generalize skip .blank cs p = gap at hlen ⊢
    obtain ⟨unclosed, rest, q⟩ := gap
    cases rest with
    | nil => exact moved_behind unclosed (.eof (Pos.one_le_line _))
    | cons c t =>
      dsimp only [List.length_cons] at hlen
      have ht : t.length < fuel := by omega
      have ht' : t.length < fuel' := by omega
      obtain ⟨hle, hkind⟩ := lexeme_advances fuel c t q
      refine moved_behind unclosed ?_
      dsimp only [Read.down]
      rw [lexeme_down c ht ht' (q.down 1), lexeme_down c ht ht q]
      exact .cons hkind (Pos.one_le_line _)
        (ih (Nat.lt_of_le_of_lt hle ht) (Nat.lt_of_le_of_lt hle ht') _)

/-! ## Lines without tokens -/

/-- A source line, without its line feed, that holds no token: it is blank, or holds a comment up to its end or
a directive. -/
inductive SkippedLine : List Char → Prop where
  | blank {cs : List Char} (h : ∀ c ∈ cs, c = ' ' ∨ c = '\t' ∨ c = '\r') : SkippedLine cs
  | comment {cs text : List Char} (h : ∀ c ∈ cs, c = ' ' ∨ c = '\t' ∨ c = '\r') (htext : '\n' ∉ text) :
      SkippedLine (cs ++ '/' :: '/' :: text)
  | directive {cs text : List Char} (h : ∀ c ∈ cs, c = ' ' ∨ c = '\t' ∨ c = '\r') (htext : '\n' ∉ text) :
      SkippedLine (cs ++ '#' :: text)

/-- Complete lines. -/
def header (lines : List (List Char)) : List Char := lines.flatMap (· ++ ['\n'])

theorem skip_blanks {cs : List Char} (h : ∀ c ∈ cs, c = ' ' ∨ c = '\t' ∨ c = '\r') (rest : List Char)
    (line column : Nat) : ∃ column', skip .blank (cs ++ rest) ⟨line, column⟩ = skip .blank rest ⟨line, column'⟩ := by
  induction cs generalizing column with
  | nil => exact ⟨column, rfl⟩
  | cons c cs ih =>
    obtain ⟨column', hrest⟩ := ih (fun d hd => h d (List.mem_cons_of_mem _ hd)) (column + 1)
    refine ⟨column', ?_⟩
    rw [← hrest]
    rcases h c (List.mem_cons_self ..) with rfl | rfl | rfl <;> rfl

theorem skip_line_end {text : List Char} (h : '\n' ∉ text) (rest : List Char) (line column : Nat) :
    skip .line (text ++ '\n' :: rest) ⟨line, column⟩ = skip .blank rest ⟨line + 1, 1⟩ := by
  induction text generalizing column with
  | nil => rfl
  | cons c text ih =>
    have hc : c ≠ '\n' := fun hc => h (hc ▸ List.mem_cons_self ..)
    rw [List.cons_append, skip, if_neg hc, Pos.next, if_neg hc]
    exact ih (fun hmem => h (List.mem_cons_of_mem _ hmem)) (column + 1)

theorem skip_skippedLine {cs : List Char} (h : SkippedLine cs) (rest : List Char) (line column : Nat) :
    skip .blank (cs ++ '\n' :: rest) ⟨line, column⟩ = skip .blank rest ⟨line + 1, 1⟩ := by
  cases h with
  | blank h =>
    obtain ⟨column', hskip⟩ := skip_blanks h ('\n' :: rest) line column
    exact hskip
  | comment h htext =>
    rename_i cs text
    rw [List.append_assoc, List.cons_append, List.cons_append]
    obtain ⟨column', hskip⟩ := skip_blanks h ('/' :: '/' :: (text ++ '\n' :: rest)) line column
    exact hskip.trans (skip_line_end htext rest line (column' + 2))
  | directive h htext =>
    rename_i cs text
    rw [List.append_assoc, List.cons_append]
    obtain ⟨column', hskip⟩ := skip_blanks h ('#' :: (text ++ '\n' :: rest)) line column
    exact hskip.trans (skip_line_end htext rest line (column' + 1))

theorem skip_header {lines : List (List Char)} (h : ∀ line ∈ lines, SkippedLine line) (rest : List Char)
    (first : Nat) : skip .blank (header lines ++ rest) ⟨first, 1⟩ = skip .blank rest ⟨first + lines.length, 1⟩ := by
  induction lines generalizing first with
  | nil => rfl
  | cons line lines ih =>
    rw [header, List.flatMap_cons, List.append_assoc, List.append_assoc,
      List.singleton_append, skip_skippedLine (h line (List.mem_cons_self ..))]
    rw [List.length_cons, Nat.add_comm lines.length, ← Nat.add_assoc]
    exact ih (fun l hl => h l (List.mem_cons_of_mem _ hl)) (first + 1)

/-- The tokens of a text with a header are those of the text, as many lines further down as the header has. -/
theorem scan_header {lines : List (List Char)} (h : ∀ line ∈ lines, SkippedLine line) (source : String) :
    Tokens.Moved lines.length (scan source) (scan (String.ofList (header lines) ++ source)) := by
  have hskip : ∀ fuel, tokensFrom (fuel + 1) (header lines ++ source.toList) .start =
      tokensFrom (fuel + 1) source.toList (Pos.start.down lines.length) := by
    intro fuel
    unfold tokensFrom
    rw [show Pos.start = ⟨1, 1⟩ from rfl, skip_header h]
    rfl
  unfold scan
  rw [String.toList_append, String.toList_ofList, hskip]
  refine tokensFrom_moved (Nat.lt_succ_self _) ?_ ⟨0, 1⟩
  rw [String.length_append]
  exact Nat.lt_succ_of_le (Nat.le_add_left ..)

end Scan

end CallTrace
