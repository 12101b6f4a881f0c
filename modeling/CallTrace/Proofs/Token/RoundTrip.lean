import CallTrace.Proofs.Token.Printer
import Mathlib.Data.List.Infix

/-! # Reading printed tokens gives them back

* `Scan.skip_filler`, `Scan.skip_of_stops`: text without tokens is skipped, and skipping stops before a token.
* `Scan.unescaped`: the text that the inside of a string literal stands for.
* `Scan.Legible`: reading the text of a token gives the token. There is one lemma for each kind of token.
* `Scan.scan_render`: reading inverts printing, and finds where each token stands.
-/

namespace CallTrace
set_option autoImplicit false

namespace Scan

/-! ## Text without tokens -/

theorem skip_space {c : Char} (hc : isSpace c) (cs : List Char) (p : Pos) :
    skip .blank (c :: cs) p = skip .blank cs (p.next c) := by
  simp only [isSpace, Bool.or_eq_true, decide_eq_true_eq] at hc
  rcases hc with ((rfl | rfl) | rfl) | rfl <;> rfl

/-- A comment up to the end of its line is skipped with the line feed. -/
theorem skip_line {text : List Char} (h : '\n' ∉ text) (cs : List Char) (p : Pos) :
    skip .line (text ++ '\n' :: cs) p = skip .blank cs (p.after (text ++ ['\n'])) := by
  induction text generalizing p with
  | nil => rfl
  | cons c text ih =>
    rw [List.mem_cons, not_or] at h
    rw [List.cons_append, skip, if_neg (Ne.symm h.1)]
    exact ih h.2 (p.next c)

/-- A closed comment is skipped up to the first `*` with a `/` after it. -/
theorem skip_block {text : List Char} (h : ¬ ['*', '/'] <:+: text) (cs : List Char) (opened p : Pos) :
    skip (.block opened) (text ++ '*' :: '/' :: cs) p =
      skip .blank cs (p.after (text ++ ['*', '/'])) := by
  induction text generalizing p with
  | nil => rfl
  | cons c text ih =>
    have hopen : ∀ ds, c = '*' → text ++ '*' :: '/' :: cs = '/' :: ds → False := by
      rintro ds rfl hds
      cases text with
      | nil => cases hds
      | cons d text =>
        obtain rfl : d = '/' := (List.cons.inj hds).1
        exact h ⟨[], text, rfl⟩
    have hrest : ¬ ['*', '/'] <:+: text := fun hrest => h (hrest.trans (List.suffix_cons c text).isInfix)
    rw [List.cons_append, skip]
    · exact ih hrest (p.next c)
    · exact hopen

theorem skip_filler {gap : List Char} (h : Filler gap) (cs : List Char) (p : Pos) :
    skip .blank (gap ++ cs) p = skip .blank cs (p.after gap) := by
  induction h generalizing p with
  | nil => rfl
  | space hc h ih => rw [List.cons_append, skip_space hc, ih]; rfl
  | @line text gap htext h ih =>
    have hopen : skip .blank ('/' :: '/' :: (text ++ '\n' :: gap) ++ cs) p =
        skip .line (text ++ '\n' :: (gap ++ cs)) (p.right 2) := by simp [skip]
    rw [hopen, skip_line htext, ih, ← Pos.after_append, List.append_assoc]
    rfl
  | @block text gap htext h ih =>
    have hopen : skip .blank ('/' :: '*' :: (text ++ '*' :: '/' :: gap) ++ cs) p =
        skip (.block p) (text ++ '*' :: '/' :: (gap ++ cs)) (p.right 2) := by simp [skip]
    rw [hopen, skip_block htext, ih, ← Pos.after_append, List.append_assoc]
    rfl

/-- No token-free text starts with the character `c` before `cs`. -/
structure Stops (c : Char) (cs : List Char) : Prop where
  notSpace : isSpace c = false
  notHash : c ≠ '#'
  notComment : c = '/' → ∀ d ∈ cs.head?, d ≠ '/' ∧ d ≠ '*'

theorem skip_of_stops {c : Char} {cs : List Char} (h : Stops c cs) (p : Pos) :
    skip .blank (c :: cs) p = ⟨none, c :: cs, p⟩ := by
  have hline : ∀ ds, c = '/' → cs = '/' :: ds → False := by
    rintro ds hc rfl
    exact (h.notComment hc '/' rfl).1 rfl
  have hblock : ∀ ds, c = '/' → cs = '*' :: ds → False := by
    rintro ds hc rfl
    exact (h.notComment hc '*' rfl).2 rfl
  have hspace : ¬ (c = ' ' || c = '\t' || c = '\r' || c = '\n') = true :=
    Bool.eq_false_iff.mp h.notSpace
  rw [skip]
  · rw [if_neg hspace, if_neg h.notHash]
  · exact hline
  · exact hblock

/-! ## One kind of token after another -/

/-- Reading the text of the token `k` before a space gives the token, and stops before the space. -/
structure Legible (k : Token.Kind) : Prop where
  oneLine : '\n' ∉ k.spell
  reads : ∀ rest, SpaceFirst rest → ∃ c cs, k.spell = c :: cs ∧ Stops c (cs ++ rest) ∧
    ∀ fuel p, lexeme fuel c (cs ++ rest) p = ⟨⟨k, p⟩, rest, p.right k.spell.length⟩

/-- A character stands between quotes as it is, or as an escape for it. -/
theorem escape_cases (c : Char) :
    (escape c = [c] ∧ c ≠ '\n' ∧ c ≠ '"' ∧ c ≠ '\'' ∧ c ≠ '\\') ∨
      ∃ d, escape c = ['\\', d] ∧ unescape d = some c ∧ d ≠ '\n' := by
  unfold escape
  split
  case h_8 => exact .inl ⟨rfl, by assumption, by assumption, by assumption, by assumption⟩
  all_goals exact .inr ⟨_, rfl, rfl, by decide⟩

theorem newline_not_mem_escape (c : Char) : '\n' ∉ escape c := by
  rcases escape_cases c with ⟨h, hc, -⟩ | ⟨d, h, -, hd⟩
  · simpa [h] using hc.symm
  · simpa [h] using hd.symm

theorem right_right (p : Pos) (m n : Nat) : (p.right m).right n = p.right (m + n) := by
  simp only [Pos.right, Nat.add_assoc]

theorem next_eq_right {c : Char} (h : c ≠ '\n') (p : Pos) : p.next c = p.right 1 := if_neg h

/-- The text inside of a string literal with its escapes read; there is none if a quote stands alone or an escape is
unknown. -/
def unescaped : List Char → Option (List Char)
  | [] => some []
  | '\\' :: c :: cs =>
    match unescape c with
    | some d => (unescaped cs).map (d :: ·)
    | none => none
  | c :: cs => if c = '"' ∨ c = '\\' ∨ c = '\n' then none else (unescaped cs).map (c :: ·)

theorem unescape_newline : unescape '\n' = none := rfl

/-- A literal is read to the quote that closes it. -/
theorem stringBody_unescaped {text cs : List Char} (h : unescaped text = some cs) (done rest : List Char) (p : Pos) :
    stringBody done (text ++ '"' :: rest) p =
      ⟨.str (String.ofList (done.reverse ++ cs)), rest, p.right (text.length + 1)⟩ := by
  fun_induction unescaped text generalizing cs done p with
  | case1 =>
    cases h
    simp [stringBody]
  | case2 c text d hd ih =>
    obtain ⟨ds, hds, rfl⟩ := Option.map_eq_some_iff.mp h
    have hline : c ≠ '\n' := by
      rintro rfl
      cases unescape_newline.symm.trans hd
    rw [List.cons_append, List.cons_append, stringBody, hd, next_eq_right hline, right_right]
    dsimp only
    rw [ih hds, right_right, List.reverse_cons, List.append_assoc, List.singleton_append]
    simp [Nat.add_comm, Nat.add_left_comm]
  | case3 => cases h
  | case4 c text _ hc => cases h
  | case5 c text _ hc ih =>
    obtain ⟨ds, hds, rfl⟩ := Option.map_eq_some_iff.mp h
    obtain ⟨hquote, hslash, hline⟩ : c ≠ '"' ∧ c ≠ '\\' ∧ c ≠ '\n' := by simpa [not_or] using hc
    rw [List.cons_append, stringBody]
    · simp only [hline, hquote, hslash, if_false]
      rw [ih hds, right_right, List.reverse_cons, List.append_assoc, List.singleton_append]
      simp [Nat.add_comm]
    · exact fun _ _ hc _ => hslash hc

/-- What is written with escapes is read back. -/
theorem unescaped_escape (cs : List Char) : unescaped (cs.flatMap escape) = some cs := by
  induction cs with
  | nil => rfl
  | cons c cs ih =>
    rw [List.flatMap_cons]
    rcases escape_cases c with ⟨h, hline, hquote, -, hslash⟩ | ⟨d, h, hd, -⟩
    · rw [h, List.singleton_append, unescaped]
      · simp [hline, hquote, hslash, ih]
      · exact fun _ _ hc _ => hslash hc
    · rw [h, List.cons_append, List.singleton_append, unescaped, hd, ih]
      rfl

theorem legible_str (s : String) : Legible (.str s) := by
  refine ⟨?_, fun rest _ => ⟨'"', s.toList.flatMap escape ++ ['"'], rfl, ⟨rfl, by decide, nofun⟩, ?_⟩⟩
  · simp [Token.Kind.spell, newline_not_mem_escape]
  · intro fuel p
    rw [List.append_assoc, List.singleton_append, lexeme, if_pos rfl, stringBody_unescaped (unescaped_escape s.toList),
      right_right]
    simp [Token.Kind.spell, Nat.add_comm]

theorem legible_char (c : Char) : Legible (.char c) := by
  refine ⟨?_, fun rest _ => ⟨'\'', escape c ++ ['\''], rfl, ⟨rfl, by decide, nofun⟩, ?_⟩⟩
  · simp [Token.Kind.spell, newline_not_mem_escape]
  · intro fuel p
    have hread : charBody (escape c ++ '\'' :: rest) (p.right 1) =
        ⟨.char c, rest, p.right ((escape c).length + 2)⟩ := by
      rcases escape_cases c with ⟨h, hline, -, hquote, hslash⟩ | ⟨d, h, hd, hline⟩
      · rw [h, List.singleton_append, charBody]
        · simp [hquote, hline, charEnd, next_eq_right, right_right]
        · exact fun hc _ => hslash hc
        · exact fun _ _ hc _ => hslash hc
      · rw [h, List.cons_append, List.singleton_append, charBody]
        simp [hd, charEnd, next_eq_right hline, right_right]
    rw [List.append_assoc, List.singleton_append, lexeme, if_neg (by decide), if_pos rfl, hread]
    simp [Token.Kind.spell]

/-! ### Numbers -/

/-- What a class of characters takes off a text up to a space. -/
theorem span_spaceFirst {f : Char → Bool} {cs rest : List Char} (hcs : ∀ c ∈ cs, f c)
    (hf : ∀ c, isSpace c → f c = false) (h : SpaceFirst rest) :
    (cs ++ rest).takeWhile f = cs ∧ (cs ++ rest).dropWhile f = rest := by
  obtain ⟨c, ds, rfl, hc⟩ := h
  have hstop : f c = false := hf c hc
  constructor
  · rw [List.takeWhile_append_of_pos hcs, List.takeWhile_cons_of_neg (by simp [hstop]), List.append_nil]
  · rw [List.dropWhile_append_of_pos hcs, List.dropWhile_cons_of_neg (by simp [hstop])]

theorem isSpace_cases {c : Char} (h : isSpace c) : c = ' ' ∨ c = '\t' ∨ c = '\r' ∨ c = '\n' := by
  simpa [isSpace, or_assoc] using h

theorem isDigit_of_isSpace {c : Char} (h : isSpace c) : Text.isDigit c = false := by
  rcases isSpace_cases h with rfl | rfl | rfl | rfl <;> rfl

theorem isSuffix_of_isSpace {c : Char} (h : isSpace c) : isSuffix c = false := by
  rcases isSpace_cases h with rfl | rfl | rfl | rfl <;> rfl

theorem inName_of_isSpace {c : Char} (h : isSpace c) : inName c = false := by
  rcases isSpace_cases h with rfl | rfl | rfl | rfl <;> rfl

theorem startsName_of_isSpace {c : Char} (h : isSpace c) : startsName c = false := by
  rcases isSpace_cases h with rfl | rfl | rfl | rfl <;> rfl

theorem ne_of_class {f : Char → Bool} {c d : Char} (hc : f c) (hd : f d = false) : c ≠ d := by
  rintro rfl
  exact Bool.false_ne_true (hd.symm.trans hc)

/-- A class of characters without those that start text without tokens. -/
theorem Stops.of_class {f : Char → Bool} {c : Char} (hc : f c) (hspace : ∀ d, isSpace d → f d = false)
    (hhash : f '#' = false) (hslash : f '/' = false) (cs : List Char) : Stops c cs where
  notSpace := Bool.eq_false_iff.mpr fun h => Bool.false_ne_true ((hspace c h).symm.trans hc)
  notHash := ne_of_class hc hhash
  notComment h := absurd h (ne_of_class hc hslash)

theorem isDigit_of_mem_toDigits {n : Nat} {c : Char} (h : c ∈ Nat.toDigits 10 n) : Text.isDigit c := by
  have hc : '0'.toNat ≤ c.toNat ∧ c.toNat ≤ '9'.toNat :=
    Char.isDigit_iff_toNat.mp (Nat.isDigit_of_mem_toDigits (by decide) (by decide) h)
  simpa [Text.isDigit, Char.le_def, UInt32.le_iff_toNat_le] using hc

theorem numeral_toDigits (n : Nat) : Text.numeral (Nat.toDigits 10 n) = n :=
  Nat.ofDigitChars_ten_toDigits

theorem number_spaceFirst (n : Nat) {rest : List Char} (h : SpaceFirst rest) (p : Pos) :
    number (Nat.toDigits 10 n ++ rest) p =
      ⟨intLiteral (Nat.toDigits 10 n), rest, p.right (Nat.toDigits 10 n).length⟩ := by
  have hdigits : ∀ c ∈ Nat.toDigits 10 n, Text.isDigit c := fun c => isDigit_of_mem_toDigits
  obtain ⟨htake, hdrop⟩ := span_spaceFirst hdigits (fun _ => isDigit_of_isSpace) h
  have hnone : ∀ c ∈ ([] : List Char), isSuffix c := nofun
  obtain ⟨hsuffix, hafter⟩ := span_spaceFirst hnone (fun _ => isSuffix_of_isSpace) h
  rw [List.nil_append] at hsuffix hafter
  obtain ⟨d, ds, rfl, hd⟩ := h
  have hpoint : d ≠ '.' := (ne_of_class hd rfl)
  unfold number
  rw [htake, hdrop]
  dsimp only
  split
  · next hcons => exact absurd (List.cons.inj hcons).1 hpoint
  · rw [hsuffix, hafter]
    rfl

theorem legible_int {n : Int} (hn : 0 ≤ n) (hrange : inRange n) : Legible (.int n) := by
  obtain ⟨c, cs, hcs⟩ := List.exists_cons_of_ne_nil (Nat.toDigits_ne_nil (n := n.toNat) (b := 10))
  have hc : Text.isDigit c := isDigit_of_mem_toDigits (hcs ▸ List.mem_cons_self)
  have hvalue : intLiteral (Nat.toDigits 10 n.toNat) = .int n := by
    rw [intLiteral, numeral_toDigits, Int.toNat_of_nonneg hn, if_pos hrange]
  refine ⟨fun hline => absurd (isDigit_of_mem_toDigits hline) (by decide), fun rest hrest => ?_⟩
  refine ⟨c, cs, hcs, .of_class hc (fun _ => isDigit_of_isSpace) rfl rfl _, fun fuel p => ?_⟩
  rw [lexeme, if_neg (ne_of_class hc rfl), if_neg (ne_of_class hc rfl), if_pos (by rw [hc, Bool.true_or]),
    ← List.cons_append, ← hcs, number_spaceFirst _ hrest, hvalue]
  rfl

/-! ### Names and words -/

theorem name_spaceFirst {s : String} (hs : ∀ c ∈ s.toList, inName c) {rest : List Char} (hrest : SpaceFirst rest)
    (fuel : Nat) (p : Pos) :
    name fuel (s.toList ++ rest) p = ⟨⟨nameKind s, p⟩, rest, p.right s.toList.length⟩ := by
  obtain ⟨htake, hdrop⟩ := span_spaceFirst hs (fun _ => inName_of_isSpace) hrest
  obtain ⟨c, ds, rfl, hc⟩ := hrest
  have hcolon : c ≠ ':' := ne_of_class hc rfl
  unfold name
  rw [htake, hdrop, String.ofList_toList]
  dsimp only
  split
  · next h => exact absurd (List.cons.inj h).1 hcolon
  · next h => exact absurd (List.cons.inj h).1 hcolon
  · rfl

theorem isDigit_of_startsName {c : Char} (h : startsName c) : Text.isDigit c = false := by
  simp only [startsName, Char.le_def, UInt32.le_iff_toNat_le, Bool.or_eq_true, Bool.and_eq_true,
    decide_eq_true_eq] at h
  rcases h with (⟨ha, -⟩ | ⟨ha, -⟩) | rfl
  · simp only [Text.isDigit, Char.le_def, UInt32.le_iff_toNat_le, Bool.and_eq_false_iff, decide_eq_false_iff_not]
    exact .inr (by simp at ha ⊢; omega)
  · simp only [Text.isDigit, Char.le_def, UInt32.le_iff_toNat_le, Bool.and_eq_false_iff, decide_eq_false_iff_not]
    exact .inr (by simp at ha ⊢; omega)
  · rfl

/-- A token whose text is a name that is read as the token. -/
theorem legible_of_isName {k : Token.Kind} {s : String} (hs : isName s.toList) (hspell : k.spell = s.toList)
    (hk : nameKind s = k) : Legible k := by
  obtain ⟨c, cs, hcs⟩ : ∃ c cs, s.toList = c :: cs := by
    cases h : s.toList with
    | nil => rw [h] at hs; cases hs
    | cons c cs => exact ⟨c, cs, rfl⟩
  obtain ⟨hc, hmore⟩ : startsName c ∧ ∀ d ∈ cs, inName d := by
    rw [hcs, isName, Bool.and_eq_true, List.all_eq_true] at hs
    exact hs
  have hall : ∀ d ∈ s.toList, inName d := by
    rw [hcs, List.forall_mem_cons]
    exact ⟨by rw [inName, hc, Bool.true_or], hmore⟩
  refine ⟨fun hline => absurd (hall _ (hspell ▸ hline)) (by decide), fun rest hrest => ?_⟩
  refine ⟨c, cs, hspell.trans hcs, .of_class hc (fun _ => startsName_of_isSpace) rfl rfl _, fun fuel p => ?_⟩
  have hnumber : (Text.isDigit c || (c = '.' && (cs ++ rest).head?.any Text.isDigit)) = false := by
    rw [isDigit_of_startsName hc, decide_eq_false (ne_of_class hc rfl)]
    rfl
  rw [lexeme, if_neg (ne_of_class hc rfl), if_neg (ne_of_class hc rfl), if_neg (Bool.eq_false_iff.mp hnumber),
    if_pos hc, ← List.cons_append, ← hcs, name_spaceFirst hall hrest, hk, hspell]

theorem ofText?_text (k : Keyword) : Keyword.ofText? k.text = some k := by
  cases k <;> decide

theorem legible_word (k : Keyword) : Legible (.word k) := by
  refine legible_of_isName (s := k.text) ?_ rfl (by rw [nameKind, ofText?_text])
  cases k <;> decide

theorem legible_name {s : String} (hs : isName s.toList) (hword : Keyword.ofText? s = none) : Legible (.name s) :=
  legible_of_isName hs rfl (by rw [nameKind, hword])

/-! ### Marks -/

/-- No mark of two characters has a space as its second one. -/
theorem mark2_of_isSpace (c : Char) {d : Char} (h : isSpace d) : mark2 c d = none := by
  rcases isSpace_cases h with rfl | rfl | rfl | rfl <;> (unfold mark2; split <;> simp_all)

/-- Whether a character starts marks only. -/
def startsMark (c : Char) : Bool :=
  c ≠ '"' && c ≠ '\'' && c ≠ '#' && !isSpace c && !Text.isDigit c && !startsName c

/-- A mark has one character or two. -/
theorem mark_cases (m : Mark) :
    (∃ c, m.text.toList = [c] ∧ mark1 c = some m ∧ startsMark c) ∨
      ∃ c d, m.text.toList = [c, d] ∧ mark2 c d = some m ∧ startsMark c ∧ c ≠ '.' ∧ d ≠ '/' ∧ d ≠ '*' := by
  cases m
  case eqEq | notEq | le | ge | andAnd | orOr | ltLt | gtGt | plusEq | minusEq | starEq | slashEq | percentEq |
      plusPlus | minusMinus =>
    exact .inr ⟨_, _, rfl, rfl, by decide⟩
  all_goals exact .inl ⟨_, rfl, rfl, by decide⟩

theorem newline_not_mem_mark (m : Mark) : '\n' ∉ m.text.toList := by
  cases m <;> decide

/-- A mark is read where no number starts. -/
theorem lexeme_mark {c : Char} (h : startsMark c) {cs : List Char}
    (hpoint : c = '.' → ∀ d ∈ cs.head?, Text.isDigit d = false) (fuel : Nat) (p : Pos) :
    lexeme fuel c cs p = ⟨⟨(markKind c cs p).value, p⟩, (markKind c cs p).rest, (markKind c cs p).pos⟩ := by
  simp only [startsMark, Bool.and_eq_true, decide_eq_true_eq, Bool.not_eq_true'] at h
  obtain ⟨⟨⟨⟨⟨hquote, htick⟩, -⟩, -⟩, hdigit⟩, hname⟩ := h
  have hnumber : ¬ (Text.isDigit c || (c = '.' && cs.head?.any Text.isDigit)) = true := by
    rw [hdigit, Bool.false_or, Bool.and_eq_true, decide_eq_true_eq]
    rintro ⟨hc, hany⟩
    obtain ⟨d, hd, htrue⟩ := (Option.any_eq_true _ _).mp hany
    exact Bool.false_ne_true ((hpoint hc d hd).symm.trans htrue)
  rw [lexeme, if_neg hquote, if_neg htick, if_neg hnumber, if_neg (Bool.eq_false_iff.mp hname)]

theorem stops_of_startsMark {c : Char} (h : startsMark c) {cs : List Char}
    (hcomment : ∀ d ∈ cs.head?, d ≠ '/' ∧ d ≠ '*') : Stops c cs := by
  simp only [startsMark, Bool.and_eq_true, decide_eq_true_eq, Bool.not_eq_true'] at h
  obtain ⟨⟨⟨⟨-, hhash⟩, hspace⟩, -⟩, -⟩ := h
  exact ⟨hspace, hhash, fun _ => hcomment⟩

theorem legible_mark (m : Mark) : Legible (.mark m) := by
  refine ⟨newline_not_mem_mark m, fun rest hrest => ?_⟩
  obtain ⟨s, ds, rfl, hs⟩ := hrest
  rcases mark_cases m with ⟨c, htext, hm, hc⟩ | ⟨c, d, htext, hm, hc, hpoint, hslash, hstar⟩
  · refine ⟨c, [], htext, stops_of_startsMark hc ?_, fun fuel p => ?_⟩
    · intro d hd
      obtain rfl := Option.some.inj hd
      exact ⟨ne_of_class hs rfl, ne_of_class hs rfl⟩
    · have hread : markKind c (s :: ds) p = ⟨.mark m, s :: ds, p.right 1⟩ := by
        simp [markKind, mark2_of_isSpace c hs, hm]
      have hpoint : c = '.' → ∀ d ∈ (s :: ds).head?, Text.isDigit d = false := by
        intro _ d hd
        obtain rfl := Option.some.inj hd
        exact isDigit_of_isSpace hs
      rw [List.nil_append, lexeme_mark hc hpoint, hread]
      simp [Token.Kind.spell, htext]
  · refine ⟨c, [d], htext, stops_of_startsMark hc ?_, fun fuel p => ?_⟩
    · intro e he
      obtain rfl := Option.some.inj he
      exact ⟨hslash, hstar⟩
    · have hread : markKind c (d :: s :: ds) p = ⟨.mark m, s :: ds, p.right 2⟩ := by
        simp [markKind, hm]
      rw [List.singleton_append, lexeme_mark hc (fun h => absurd h hpoint), hread]
      simp [Token.Kind.spell, htext]

theorem legible {k : Token.Kind} (h : k.Spelled) : Legible k := by
  cases k with
  | int n => exact legible_int h.1 h.2
  | char c => exact legible_char c
  | str s => exact legible_str s
  | name s => exact legible_name h.1 h.2
  | word k => exact legible_word k
  | mark m => exact legible_mark m
  | float _ | invalid _ | eof => exact h.elim

/-! ## Lists of tokens -/

/-- The tokens of a printed list that starts at a place. -/
def placed (p : Pos) : List (Token.Kind × List Char) → List Token
  | [] => [⟨.eof, p⟩]
  | t :: ts => ⟨t.1, p⟩ :: placed (p.after (t.1.spell ++ t.2)) ts

theorem tokensFrom_render {ts : List (Token.Kind × List Char)}
    (h : ∀ t ∈ ts, t.1.Spelled ∧ Separator t.2) {gap : List Char} (hgap : Filler gap) {fuel : Nat}
    (hfuel : (gap ++ render ts).length < fuel) (p : Pos) :
    tokensFrom fuel (gap ++ render ts) p = placed (p.after gap) ts := by
  induction ts generalizing gap fuel p with
  | nil =>
    obtain ⟨fuel, rfl⟩ : ∃ n, fuel = n + 1 := ⟨fuel - 1, by omega⟩
    rw [tokensFrom, skip_filler hgap]
    rfl
  | cons t ts ih =>
    obtain ⟨fuel, rfl⟩ : ∃ n, fuel = n + 1 := ⟨fuel - 1, by omega⟩
    obtain ⟨⟨hspelled, hsep⟩, hmore⟩ := List.forall_mem_cons.mp h
    have hk := legible hspelled
    obtain ⟨c, cs, hspell, hstops, hread⟩ := hk.reads _ (hsep.spaceFirst (render ts))
    have hlen : (t.2 ++ render ts).length < fuel := by
      rw [render_cons, hspell] at hfuel
      simp only [List.length_append, List.length_cons] at hfuel ⊢
      omega
    have hskip : skip .blank (gap ++ render (t :: ts)) p =
        ⟨none, c :: (cs ++ (t.2 ++ render ts)), p.after gap⟩ := by
      rw [skip_filler hgap, render_cons, hspell, List.cons_append, skip_of_stops hstops]
    rw [tokensFrom, hskip]
    dsimp only
    rw [hread, ih hmore hsep.filler hlen, ← Pos.after_eq_right hk.oneLine, placed, Pos.after_append]
    rfl

theorem kinds_placed (p : Pos) (ts : List (Token.Kind × List Char)) :
    (placed p ts).map (·.kind) = ts.map (·.1) ++ [.eof] := by
  induction ts generalizing p with
  | nil => rfl
  | cons t ts ih => simp [placed, ih]

theorem places_placed (p : Pos) (ts : List (Token.Kind × List Char)) :
    (placed p ts).map (·.pos) = ts.inits.map fun before => p.after (render before) := by
  induction ts generalizing p with
  | nil => rfl
  | cons t ts ih =>
    rw [placed, List.map_cons, ih, List.inits_cons, List.map_cons, List.map_map]
    simp [Function.comp_def, Pos.after, render]

/-- Printed tokens, each with a separator after it, are read as these tokens and the end of the file; each of
them stands at the place that comes after the text of the tokens before it. -/
theorem scan_render {ts : List (Token.Kind × List Char)} (h : ∀ t ∈ ts, t.1.Spelled ∧ Separator t.2) :
    (scan (String.ofList (render ts))).map (·.kind) = ts.map (·.1) ++ [.eof] ∧
      (scan (String.ofList (render ts))).map (·.pos) =
        ts.inits.map fun before => Pos.ofText (render before) := by
  have hread : scan (String.ofList (render ts)) = placed .start ts := by
    unfold scan
    rw [String.toList_ofList, String.length_ofList]
    exact tokensFrom_render h .nil (Nat.lt_succ_self _) .start
  rw [hread, kinds_placed, places_placed]
  exact ⟨rfl, List.map_congr_left fun before _ => Pos.start_after _⟩

/-- A string with an escape, a `/` and the name `std`, with comments after the first two. -/
theorem scan_render_comments :
    let ts : List (Token.Kind × List Char) :=
      [(.str "\"", [' ', '/', '/', '*', '\n']), (.mark .slash, ['\t', '/', '*', '*', '\n', '*', '/']),
        (.name "std", [' '])]
    (∀ t ∈ ts, t.1.Spelled ∧ Separator t.2) ∧
      (scan (String.ofList (render ts))).map (·.kind) = [.str "\"", .mark .slash, .name "std", .eof] ∧
      (scan (String.ofList (render ts))).map (·.pos) = [⟨1, 1⟩, ⟨2, 1⟩, ⟨3, 3⟩, ⟨3, 7⟩] := by
  intro ts
  have hstar : '\n' ∉ ['*'] := by decide
  have hline : Separator [' ', '/', '/', '*', '\n'] := .intro rfl (.line hstar .nil)
  have hopen : ¬ ['*', '/'] <:+: ['*', '\n'] := by decide
  have hblock : Separator ['\t', '/', '*', '*', '\n', '*', '/'] :=
    .intro rfl (.block hopen .nil)
  have h : ∀ t ∈ ts, t.1.Spelled ∧ Separator t.2 := by
    simp only [ts, List.forall_mem_cons]
    exact ⟨⟨trivial, hline⟩, ⟨trivial, hblock⟩, ⟨⟨by decide, by decide⟩, .intro rfl .nil⟩, nofun⟩
  exact ⟨h, (scan_render h).1, (scan_render h).2.trans (by decide)⟩

end Scan

end CallTrace
