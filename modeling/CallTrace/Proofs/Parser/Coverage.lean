import CallTrace.Proofs.Parser.Respelling
import CallTrace.Proofs.Token.Places
import Mathlib.Data.List.Basic

/-! # Reading a text loses no token

`parse_covers`: the items of a text take all of its tokens but the end of the file, one range behind another. Fuel
never ends the reading, and neither tokens behind the end of the file nor a `>>` that was split in place by an
earlier attempt make a difference.
-/

namespace CallTrace.Surface
set_option autoImplicit false

open Surface.Parser (fuelFor nextItem recover Respelt ReadAlike)

/-- What ends a list ends each of its suffixes. -/
theorem eq_concat_of_append {α : Type} {as bs cs : List α} {a : α} (hcs : cs ≠ []) (h : as ++ [a] = bs ++ cs) :
    ∃ ds, cs = ds ++ [a] ∧ as = bs ++ ds := by
  rcases List.append_eq_append_iff.mp h with ⟨ds, rfl, hds⟩ | ⟨ds, rfl, rfl⟩
  · cases ds with
    | nil => exact ⟨[], hds.symm, by simp⟩
    | cons d ds =>
      obtain ⟨-, hnil⟩ := List.cons.inj hds
      exact absurd (List.append_eq_nil_iff.mp hnil.symm).2 hcs
  · exact ⟨ds, rfl, rfl⟩

/-- Nothing is split in the tokens of a text, and nothing stands behind the end of the file. -/
theorem twin_scan (source : String) :
    Twin ⟨false, false, [], []⟩ (.plain 0) (Scan.scan source) (Scan.scan source) := by
  obtain ⟨us, p, hts, hus⟩ := Scan.scan_ends source
  rw [hts]
  exact .of_append rfl rfl hus (.plain 0)

/-- The items of a text take its tokens, and none is given up because fuel ran out. -/
theorem parse_taken (source : String) :
    ∃ xs p, Taken (nextItem (Text.lines source) (fuelFor (Scan.scan source))) (Scan.scan source) xs [⟨.eof, p⟩] ∧
      parse source = xs.map (·.1) ∧ ∀ x ∈ xs, x.1.Settled := by
  have hfuel : 16 * (Scan.scan source).length + 15 ≤ fuelFor (Scan.scan source) := Nat.le_succ _
  obtain ⟨xs, t, htaken, ht, hitems, -, hsettled⟩ := Parser.items_tandem (Text.lines source) rfl (twin_scan source)
    ⟨hfuel, hfuel⟩ (Nat.lt_succ_self _) (Nat.lt_succ_self _)
  obtain ⟨kind, q⟩ := t
  obtain rfl : kind = .eof := ht
  exact ⟨xs, q, htaken, hitems, hsettled⟩

/-- The tokens of a text end with the only end of the file and stand behind one another. With any more fuel the same
items are read, and nothing was given up because fuel ran out. The items take ranges of tokens that are not empty and
follow upon each other, up to the end of the file, each half of a split `>>` counted. What is skipped has a token at
least. From any token on, everything is read as before after some `>>` have been split in place, and whatever stands
behind the end of the file. -/
theorem parse_covers (source : String) :
    (∃ us p, Scan.scan source = us ++ [⟨.eof, p⟩] ∧ ∀ t ∈ us, t.kind ≠ .eof) ∧
      (Scan.scan source).Pairwise (fun t u => t.pos < u.pos) ∧
      (∀ n k, fuelFor (Scan.scan source) ≤ n → (Scan.scan source).length < k →
        Parser.items (Text.lines source) n k (Scan.scan source) = parse source) ∧
      (∀ i ∈ parse source, i.Settled) ∧
      (∃ xs p, Taken (nextItem (Text.lines source) (fuelFor (Scan.scan source))) (Scan.scan source) xs [⟨.eof, p⟩] ∧
        parse source = xs.map (·.1) ∧ Splits (Scan.scan source) (xs.flatMap (·.2) ++ [⟨.eof, p⟩])) ∧
      (∀ e t us, t.kind ≠ .eof →
        ∃ ws, ws ≠ [] ∧ t :: us = ws ++ (recover (Text.lines source) e (t :: us)).2) ∧
      ∀ before us vs zs, Scan.scan source = before ++ us → us ≠ [] → Respelt us vs →
        ReadAlike (Text.lines source) us (vs ++ zs) := by
  obtain ⟨us, p, hts, hus⟩ := Scan.scan_ends source
  have hparse : Parser.items (Text.lines source) (fuelFor (Scan.scan source)) ((Scan.scan source).length + 1)
      (Scan.scan source) = parse source := rfl
  have halike : ReadAlike (Text.lines source) (Scan.scan source) (Scan.scan source) := .of_twin rfl (twin_scan source)
  obtain ⟨xs, q, htaken, hitems, hsettled⟩ := parse_taken source
  refine ⟨⟨us, p, hts, hus⟩, Scan.scan_places source, ?_, ?_, ⟨xs, q, htaken, hitems, htaken.takes.splits⟩, ?_, ?_⟩
  · intro n k hn hk
    exact hparse ▸ halike.items (Nat.le_refl _) hn (Nat.lt_succ_self _) hk
  · intro i hi
    rw [hitems] at hi
    obtain ⟨x, hx, rfl⟩ := List.mem_map.mp hi
    exact hsettled x hx
  · intro e t us ht
    obtain ⟨ws, hne, hws, -⟩ := Parser.recover_takes (Text.lines source) e ht us
    exact ⟨ws, hne, hws⟩
  · intro before vs ws zs hbefore hne hrespelt
    obtain ⟨ys, rfl, hys⟩ := eq_concat_of_append hne (hts.symm.trans hbefore)
    have hkinds : ∀ t ∈ ys, t.kind ≠ .eof := fun t ht => hus t (hys ▸ List.mem_append_right before ht)
    have htwin := (hrespelt.twin rfl rfl hkinds (.plain 0)).append_right zs
    exact .of_twin rfl htwin

/-- The head of a function that returns a list of lists, after its type was read with the `>>` split in place. -/
theorem parse_covers_nested :
    let source := "vector<vector<int>> f();"
    ∃ us, Respelt (Scan.scan source) us ∧ us.length = (Scan.scan source).length + 1 ∧
      ReadAlike (Text.lines source) (Scan.scan source) us := by
  intro source
  let before : List Token := [⟨.word .vector, ⟨1, 1⟩⟩, ⟨.mark .lt, ⟨1, 7⟩⟩]
  let after : List Token := [⟨.name "f", ⟨1, 21⟩⟩, ⟨.mark .lparen, ⟨1, 22⟩⟩, ⟨.mark .rparen, ⟨1, 23⟩⟩,
    ⟨.mark .semicolon, ⟨1, 24⟩⟩, ⟨.eof, ⟨1, 25⟩⟩]
  have hscan : Scan.scan source = before ++ ⟨.word .vector, ⟨1, 8⟩⟩ :: ⟨.mark .lt, ⟨1, 14⟩⟩ ::
      ([⟨.word .int, ⟨1, 15⟩⟩] ++ ⟨.mark .gtGt, ⟨1, 18⟩⟩ :: after) := by
    show Scan.scan "vector<vector<int>> f();" = _
    cbv
  have hrespelt : Respelt (Scan.scan source) (before ++ ⟨.word .vector, ⟨1, 8⟩⟩ :: ⟨.mark .lt, ⟨1, 14⟩⟩ ::
      ([⟨.word .int, ⟨1, 15⟩⟩] ++ ⟨.mark .gt, ⟨1, 18⟩⟩ :: ⟨.mark .gt, ⟨1, 19⟩⟩ :: after)) :=
    .split (n := 1) (hscan ▸ .refl) rfl
  have hne : Scan.scan source ≠ [] := by
    rw [hscan]
    exact List.cons_ne_nil _ _
  obtain ⟨-, -, -, -, -, -, hcovers⟩ := parse_covers source
  refine ⟨_, hrespelt, by rw [hscan]; rfl, ?_⟩
  have halike := hcovers [] (Scan.scan source) _ [] rfl hne hrespelt
  rwa [List.append_nil] at halike

end CallTrace.Surface
