import CallTrace.Proofs.Degradations
import CallTrace.Proofs.Parser.Bodies
import CallTrace.Proofs.Parser.Starts

/-! # Step probes

A statement of a lowered function is flagged when it is the first on its line.

* `Stmt.lexical`: a statement and those inside of it, in the order in which they are written, without blocks and
  without the first clauses of `for` statements.
* `flagsFrom line xs`: the flags that lowering gives to the starts `xs` behind a start on `line`.
* `Lower.Flags before c xs m`: lowering with `c` goes through the starts `xs`, and what it makes has the flags that
  belong to them, behind the flags `before`. One rule stands for each step.
* `Probed`, `steps_translate`: which statements of a function are flagged.
-/

namespace CallTrace.Instrumented
set_option autoImplicit false

/-! ## Statements in lexical order -/

mutual

def Stmt.lexical : Stmt → List Stmt
  | .act line step action => [.act line step action]
  | .ifElse line step cond yes no => .ifElse line step cond yes no :: (lexicalAll yes ++ lexicalAll no)
  | .whileLoop line step cond body => .whileLoop line step cond body :: lexicalAll body
  | .doWhile line step body cond => .doWhile line step body cond :: lexicalAll body
  | .forLoop line step init cond update body => .forLoop line step init cond update body :: lexicalAll body
  | .block _ _ body => lexicalAll body
  | .breakLoop line step => [.breakLoop line step]
  | .continueLoop line step => [.continueLoop line step]
  | .ret line step value => [.ret line step value]

def lexicalAll : List Stmt → List Stmt
  | [] => []
  | s :: ss => s.lexical ++ lexicalAll ss

end

/-- The lines and the flags of some statements and of those inside of them. -/
def stepFlags (ss : List Stmt) : List (Nat × Bool) := (lexicalAll ss).map fun s => (s.line, s.step)

theorem stepFlags_cons (s : Stmt) (ss : List Stmt) :
    stepFlags (s :: ss) = (s.lexical.map fun s => (s.line, s.step)) ++ stepFlags ss := List.map_append

/-! ## Flags -/

/-- The line of the last start, or `line` if there is none. -/
def lastLine (line : Option Nat) (xs : List Start) : Option Nat := xs.foldl (fun _ x => some x.line) line

/-- The flags of the starts that are kept. -/
def flagsFrom (line : Option Nat) : List Start → List (Nat × Bool)
  | [] => []
  | x :: xs => (if x.kept then [(x.line, line != some x.line)] else []) ++ flagsFrom (some x.line) xs

theorem flagsFrom_append (line : Option Nat) (xs ys : List Start) :
    flagsFrom line (xs ++ ys) = flagsFrom line xs ++ flagsFrom (lastLine line xs) ys := by
  induction xs generalizing line with
  | nil => rfl
  | cons x xs ih =>
    rw [List.cons_append, flagsFrom, ih, flagsFrom, List.append_assoc]
    rfl

theorem flagsFrom_drop (line : Option Nat) (xs : List Start) : flagsFrom line (xs.map Start.drop) = [] := by
  induction xs generalizing line with
  | nil => rfl
  | cons x xs ih => exact ih (some x.line)

theorem lastLine_drop (line : Option Nat) (xs : List Start) :
    lastLine line (xs.map Start.drop) = lastLine line xs := List.foldl_map

variable {α β : Type}

/-- From the line of the last start on, `c` goes through the starts `xs`, and what it makes has the flags `before`
and then those of the starts. -/
def Lower.Flags (before : List (Nat × Bool)) (c : Lower α) (xs : List Start) (m : α → List (Nat × Bool)) : Prop :=
  ∀ s : Lowering, m (c s).1 = before ++ flagsFrom s.stepped xs ∧ (c s).2.stepped = lastLine s.stepped xs

namespace Lower.Flags

variable {before : List (Nat × Bool)} {c : Lower α} {xs ys : List Start} {m : α → List (Nat × Bool)}
  {k : β → List (Nat × Bool)}

theorem pure {a : α} (h : m a = before) : Flags before (Pure.pure a) [] m := by
  intro s
  rw [flagsFrom, List.append_nil]
  exact ⟨h, rfl⟩

theorem bind {f : α → Lower β} (h : Flags before c xs m) (hf : ∀ a, Flags (m a) (f a) ys k) :
    Flags before (c >>= f) (xs ++ ys) k := by
  intro s
  obtain ⟨hm, hlast⟩ := h s
  obtain ⟨hk, hlast'⟩ := hf (c s).1 (c s).2
  rw [flagsFrom_append, ← List.append_assoc, ← hm, ← hlast, lastLine, List.foldl_append]
  exact ⟨hk, hlast'.trans (hlast ▸ rfl)⟩

/-- What is made goes into something with the same flags. -/
theorem into {f : α → β} (h : Flags before c xs m) (hf : ∀ a, k (f a) = m a) :
    Flags before (c >>= fun a => Pure.pure (f a)) xs k :=
  List.append_nil xs ▸ h.bind fun a => .pure (hf a)

/-- What makes no statement. -/
theorem of_stepped_eq (h : ∀ s, (c s).2.stepped = s.stepped) : Flags before c [] fun _ => before := by
  intro s
  rw [flagsFrom, List.append_nil]
  exact ⟨rfl, h s⟩

/-- Flags that are already there stay in front. -/
theorem frame (h : Flags [] c xs m) (before : List (Nat × Bool)) :
    Flags before c xs fun a => before ++ m a := fun s => ⟨congrArg (before ++ ·) (h s).1, (h s).2⟩

/-- What is made is not used. -/
theorem drop (h : Flags [] c xs m) (before' : List (Nat × Bool)) :
    Flags before' c (xs.map Start.drop) fun _ => before' := by
  intro s
  rw [flagsFrom_drop, lastLine_drop, List.append_nil]
  exact ⟨rfl, (h s).2⟩

end Lower.Flags

open Lower (Flags)

variable {before : List (Nat × Bool)}

theorem flags_stepAt (line : Nat) :
    Flags before (stepAt line) [⟨line, true⟩] fun step => before ++ [(line, step)] := by
  intro s
  unfold stepAt
  by_cases h : s.stepped = some line
  · rw [if_pos h]
    simp [flagsFrom, lastLine, h]
  · rw [if_neg h]
    simp [flagsFrom, lastLine, h]

variable (lines : List String)

theorem flags_refuse (pos : Pos) (r : Refusal) : Flags before (refuse lines pos r) [] fun _ => before :=
  .of_stepped_eq fun _ => rfl

theorem flags_orRefuse (pos : Pos) (r : Except Refusal Action) :
    Flags before (orRefuse lines pos r) [] fun _ => before := by
  cases r with
  | ok a => exact .pure rfl
  | error r => exact flags_refuse lines pos r

theorem flags_lowerInit (init : Surface.ForInit) :
    Flags before (lowerInit lines init) (initStarts init) fun _ => before := by
  cases init with
  | none => exact .pure rfl
  | decl d =>
    exact ((flags_stepAt d.pos.line).drop before).bind fun _ =>
      (flags_orRefuse lines d.pos (lowerDecl d)).into fun _ => rfl
  | expr e pos =>
    exact ((flags_stepAt pos.line).drop before).bind fun _ =>
      (flags_orRefuse lines pos (lowerAction e)).into fun _ => rfl

/-! ## Statements -/

/-- The flags of the statement that another one is lowered to, if there is one. -/
def optionFlags (s : Option Stmt) : List (Nat × Bool) := stepFlags s.toList

/-- An action starts on its line. -/
theorem flags_act (pos : Pos) {c : Bool → Lower Action} (h : ∀ before step, Flags before (c step) [] fun _ => before) :
    Flags [] (stepAt pos.line >>= fun step => c step >>= fun action => pure (some (.act pos.line step action)))
      [⟨pos.line, true⟩] optionFlags :=
  (flags_stepAt pos.line).bind fun step => (h _ step).into fun _ => rfl

/-- What cannot be expressed is one action. -/
theorem flags_refused (pos : Pos) (r : Refusal) :
    Flags [] (stepAt pos.line >>= fun step => refuse lines pos r >>= fun action =>
      pure (some (.act pos.line step action))) [⟨pos.line, true⟩] optionFlags :=
  flags_act pos fun _ _ => flags_refuse lines pos r

theorem optionFlags_some (s : Stmt) : optionFlags (some s) = s.lexical.map fun s => (s.line, s.step) :=
  (stepFlags_cons s []).trans (List.append_nil _)

mutual

theorem flags_lowerStmt : (s : Surface.Stmt) → Flags [] (lowerStmt lines s) (starts s) optionFlags
  | .decl d => flags_act d.pos fun _ _ => flags_orRefuse lines d.pos _
  | .expr e pos => flags_act pos fun _ _ => flags_orRefuse lines pos _
  | .output items pos => flags_act pos fun _ _ => flags_orRefuse lines pos _
  | .ret value pos => by
    unfold lowerStmt
    cases lowerOption value with
    | ok v => exact (flags_stepAt pos.line).into fun step => rfl
    | error r => exact flags_refused lines pos r
  | .ifThen cond yes pos => by
    unfold lowerStmt starts
    cases lowerExpr cond with
    | ok c =>
      refine (flags_stepAt pos.line).bind fun step => ((flags_lowerBody yes).frame _).into fun body => ?_
      rw [optionFlags_some, Stmt.lexical, lexicalAll, List.append_nil]
      rfl
    | error r => exact flags_refused lines pos r
  | .ifElse cond yes no pos => by
    unfold lowerStmt starts
    cases lowerExpr cond with
    | ok c =>
      refine (flags_stepAt pos.line).bind fun step => ((flags_lowerBody yes).frame _).bind fun body =>
        ((flags_lowerBody no).frame _).into fun body' => ?_
      rw [optionFlags_some, Stmt.lexical, List.map_cons, List.map_append]
      rfl
    | error r => exact flags_refused lines pos r
  | .whileLoop cond body pos => by
    unfold lowerStmt starts
    cases lowerExpr cond with
    | ok c =>
      exact (flags_stepAt pos.line).bind fun step => ((flags_lowerBody body).frame _).into fun b =>
        optionFlags_some _
    | error r => exact flags_refused lines pos r
  | .doWhile body cond pos => by
    unfold lowerStmt starts
    cases lowerExpr cond with
    | ok c =>
      exact (flags_stepAt pos.line).bind fun step => ((flags_lowerBody body).frame _).into fun b =>
        optionFlags_some _
    | error r =>
      -- The statements of the body are lowered before the condition is, and are not used.
      refine (flags_stepAt pos.line).bind fun step => ?_
      have hrefused : Flags [(pos.line, step)] (lowerBody lines body >>= fun _ => refuse lines pos r >>= fun action =>
          pure (some (.act pos.line step action))) ((startsAll body).map Start.drop ++ []) optionFlags :=
        ((flags_lowerBody body).drop _).bind fun _ => (flags_refuse lines pos r).into fun _ => rfl
      rw [List.append_nil] at hrefused
      exact hrefused
  | .forLoop init cond update body pos => by
    unfold lowerStmt starts
    cases lowerOption cond with
    | error r =>
      exact (flags_stepAt pos.line).bind fun step => (flags_lowerInit lines init).bind fun i =>
        (flags_refuse lines pos r).into fun _ => rfl
    | ok c =>
      cases lowerOption update with
      | error r =>
        exact (flags_stepAt pos.line).bind fun step => (flags_lowerInit lines init).bind fun i =>
          (flags_refuse lines pos r).into fun _ => rfl
      | ok u =>
        exact (flags_stepAt pos.line).bind fun step => (flags_lowerInit lines init).bind fun i =>
          ((flags_lowerBody body).frame _).into fun b => optionFlags_some _
  | .block body pos => (flags_lowerBody body).into fun b => optionFlags_some _
  | .breakLoop pos => (flags_stepAt pos.line).into fun _ => rfl
  | .continueLoop pos => (flags_stepAt pos.line).into fun _ => rfl
  | .usingDirective _ => .pure rfl
  | .unsupported text reason pos =>
    (Flags.of_stepped_eq fun _ => rfl).bind fun _ => (flags_stepAt pos.line).into fun _ => rfl

theorem flags_lowerBody : (ss : List Surface.Stmt) → Flags [] (lowerBody lines ss) (startsAll ss) stepFlags
  | [] => .pure rfl
  | s :: ss => by
    refine (flags_lowerStmt s).bind fun lowered => ?_
    have hrest := flags_lowerBody ss
    cases lowered with
    | none => exact hrest.frame _
    | some t =>
      refine (hrest.frame _).into fun body => ?_
      rw [optionFlags_some, stepFlags_cons]

end

/-! ## Flags and lines -/

/-- The lines of the starts that are kept. -/
def keptLines (xs : List Start) : List Nat := startLines (xs.filter (·.kept))

theorem keptLines_of_kept {x : Start} (hx : x.kept) (xs : List Start) :
    keptLines (x :: xs) = x.line :: keptLines xs := by
  rw [keptLines, List.filter_cons_of_pos hx]
  rfl

theorem keptLines_of_not_kept {x : Start} (hx : ¬ x.kept) (xs : List Start) : keptLines (x :: xs) = keptLines xs := by
  rw [keptLines, List.filter_cons_of_neg hx]
  rfl

theorem map_fst_flagsFrom (line : Option Nat) (xs : List Start) : (flagsFrom line xs).map (·.1) = keptLines xs := by
  induction xs generalizing line with
  | nil => rfl
  | cons x xs ih =>
    rw [flagsFrom, List.map_append, ih]
    by_cases hx : x.kept
    · rw [if_pos hx, keptLines_of_kept hx]
      rfl
    · rw [if_neg hx, keptLines_of_not_kept hx]
      rfl

/-- A flag belongs to a start. -/
theorem flagsFrom_split {line : Option Nat} {xs : List Start} {fs gs : List (Nat × Bool)} {l : Nat} {b : Bool}
    (h : flagsFrom line xs = fs ++ (l, b) :: gs) :
    ∃ ys zs, xs = ys ++ ⟨l, true⟩ :: zs ∧ flagsFrom line ys = fs ∧ b = (lastLine line ys != some l) := by
  induction xs generalizing line fs with
  | nil => exact absurd h (by simp [flagsFrom])
  | cons x xs ih =>
    obtain ⟨k, kept⟩ := x
    cases kept with
    | false =>
      obtain ⟨ys, zs, rfl, hfs, hb⟩ := ih h
      exact ⟨⟨k, false⟩ :: ys, zs, rfl, hfs, hb⟩
    | true =>
      cases fs with
      | nil =>
        obtain ⟨⟨rfl, rfl⟩, -⟩ := List.cons.inj h
        exact ⟨[], xs, rfl, rfl, rfl⟩
      | cons f fs =>
        obtain ⟨rfl, hrest⟩ := List.cons.inj h
        obtain ⟨ys, zs, rfl, hfs, hb⟩ := ih hrest
        exact ⟨⟨k, true⟩ :: ys, zs, rfl, congrArg (_ :: ·) hfs, hb⟩

/-- Where lines never fall, a line is the last one exactly if it has been there. -/
theorem lastLine_eq {l₀ l : Nat} {xs : List Start} (h : (l₀ :: (startLines xs ++ [l])).Pairwise (· ≤ ·)) :
    lastLine (some l₀) xs = some l ↔ l₀ = l ∨ ∃ x ∈ xs, x.line = l := by
  induction xs generalizing l₀ with
  | nil => simp [lastLine]
  | cons x xs ih =>
    have hrest : (x.line :: (startLines xs ++ [l])).Pairwise (· ≤ ·) := h.of_cons
    have hhead : l₀ ≤ x.line := (List.pairwise_cons.mp h).1 _ List.mem_cons_self
    have hlast : x.line ≤ l := (List.pairwise_cons.mp hrest).1 _ List.mem_concat_self
    refine (ih hrest).trans ⟨?_, ?_⟩
    · rintro (hl | ⟨y, hy, hl⟩)
      · exact .inr ⟨x, List.mem_cons_self, hl⟩
      · exact .inr ⟨y, List.mem_cons_of_mem x hy, hl⟩
    · rintro (hl | ⟨y, hy, hl⟩)
      · exact .inl (Nat.le_antisymm hlast (hl ▸ hhead))
      · rcases List.mem_cons.mp hy with rfl | hy
        · exact .inl hl
        · exact .inr ⟨y, hy, hl⟩

theorem ascend_to {l₀ l : Nat} {b : Bool} {ys zs : List Start}
    (h : (l₀ :: startLines (ys ++ ⟨l, b⟩ :: zs)).Pairwise (· ≤ ·)) :
    (l₀ :: (startLines ys ++ [l])).Pairwise (· ≤ ·) := by
  rw [startLines_append] at h
  exact h.sublist (((List.Sublist.refl _).append ((List.nil_sublist _).cons_cons l)).cons_cons l₀)

/-! ## Functions -/

/-- The function `f` is lowered to `f'`. -/
def Lowers (f : Surface.Function) (f' : Function) : Prop := ∃ s, (lowerFunction lines f s).1 = f'

theorem Lowers.flags {f : Surface.Function} {f' : Function} (h : Lowers lines f f') :
    f.name = f'.name ∧ f.pos.line = f'.line ∧
      stepFlags f'.body = flagsFrom (some f'.line) (startsAll f.body) := by
  obtain ⟨s, rfl⟩ := h
  exact ⟨rfl, rfl, (flags_lowerBody lines f.body _).1⟩

/-- An item that is a function adds it, and other items add none. -/
theorem functions_lowerItem (functions : List Function) (driver : List Stmt) (i : Surface.Item) (s : Lowering) :
    (lowerItem lines functions driver i s).1.1 = functions ∨ ∃ f, i = .function f ∧
      (lowerItem lines functions driver i s).1.1 = addFunction (lowerFunction lines f s).1 functions := by
  have hdriver (t : Surface.Stmt) {added : Option Stmt → Lower (List Function × List Stmt)}
      (hadded : ∀ lowered t', (added lowered t').1.1 = functions) :
      ((lowerStmt lines t >>= added) s).1.1 = functions := hadded (lowerStmt lines t s).1 _
  unfold lowerItem
  split
  · next f => exact .inr ⟨f, rfl, rfl⟩
  · exact .inl rfl
  · next text reason pos =>
    refine .inl ?_
    have heither (c : Prop) [Decidable c] (ds ds' : List Stmt) : ((degrade text reason pos >>= fun _ =>
        if c then pure (functions, ds) else pure (functions, ds') : Lower (List Function × List Stmt)) s).1.1 =
          functions := by
      by_cases hc : c
      · simp only [if_pos hc]
        rfl
      · simp only [if_neg hc]
        rfl
    exact heither _ driver _
  · exact .inl (hdriver _ fun lowered t' => by cases lowered <;> rfl)

theorem lowers_of_mem_lowerItems {items : List Surface.Item} {functions : List Function} {driver : List Stmt}
    {s : Lowering} {f' : Function} (h : f' ∈ (lowerItems lines functions driver items s).1.1) :
    f' ∈ functions ∨ ∃ f, .function f ∈ items ∧ Lowers lines f f' := by
  induction items generalizing functions driver s with
  | nil => exact .inl h
  | cons i items ih =>
    rcases ih h with h | ⟨f, hf, hlowers⟩
    · rcases functions_lowerItem lines functions driver i s with hi | ⟨f, rfl, hi⟩
      · exact .inl (hi ▸ h)
      · rcases mem_addFunction (hi ▸ h) with rfl | h
        · exact .inr ⟨f, List.mem_cons_self, s, rfl⟩
        · exact .inl h
    · exact .inr ⟨f, List.mem_cons_of_mem i hf, hlowers⟩

/-- Every function of a translated program is one of the text. -/
theorem lowers_of_mem_translate {source : String} {f' : Function} (h : f' ∈ (translate source).functions) :
    ∃ f, .function f ∈ Surface.parse source ∧ Lowers (Text.lines source) f f' :=
  (lowers_of_mem_lowerItems (Text.lines source) h).resolve_left List.not_mem_nil

/-- What holds between an element of a list and each one before it holds pairwise. -/
theorem pairwise_of_splits {α : Type} {R : α → α → Prop} {l : List α}
    (h : ∀ before a after, l = before ++ a :: after → ∀ b ∈ before, R b a) : l.Pairwise R := by
  induction l with
  | nil => exact .nil
  | cons b l ih =>
    refine List.pairwise_cons.mpr ⟨fun a ha => ?_, ih fun before a after hl => ?_⟩
    · obtain ⟨before, after, rfl⟩ := List.append_of_mem ha
      exact h (b :: before) a after rfl b List.mem_cons_self
    · exact fun c hc => h (b :: before) a after (congrArg (b :: ·) hl) c (List.mem_cons_of_mem b hc)

section Body

variable {line₀ : Nat} {xs : List Start} {body : List Stmt} (hflags : stepFlags body = flagsFrom (some line₀) xs)
  (hascend : (line₀ :: startLines xs).Pairwise (· ≤ ·))
include hflags hascend

/-- Which statements are flagged, behind a head on `line₀`. -/
theorem step_iff {before after : List Stmt} {s : Stmt} (hbody : lexicalAll body = before ++ s :: after) :
    ∃ ys zs, xs = ys ++ ⟨s.line, true⟩ :: zs ∧ keptLines ys = before.map Stmt.line ∧
      (s.step = true ↔ s.line ≠ line₀ ∧ (∀ t ∈ before, t.line ≠ s.line) ∧
        ∀ y ∈ ys, y.kept = false → y.line ≠ s.line) := by
  rw [stepFlags, hbody, List.map_append, List.map_cons] at hflags
  obtain ⟨ys, zs, rfl, hys, hstep⟩ := flagsFrom_split hflags.symm
  have hkept : keptLines ys = before.map Stmt.line := by
    rw [← map_fst_flagsFrom, hys, List.map_map]
    rfl
  refine ⟨ys, zs, rfl, hkept, ?_⟩
  rw [hstep, bne_iff_ne, Ne, lastLine_eq (ascend_to hascend), not_or, not_exists]
  constructor
  · rintro ⟨hline, hys⟩
    refine ⟨Ne.symm hline, fun t ht hl => ?_, fun y hy _ hl => hys y ⟨hy, hl⟩⟩
    have hmem : t.line ∈ keptLines ys := hkept ▸ List.mem_map_of_mem ht
    obtain ⟨y, hy, hline⟩ := List.mem_map.mp hmem
    exact hys y ⟨(List.mem_filter.mp hy).1, hline.trans hl⟩
  · rintro ⟨hline, hbefore, hleft⟩
    refine ⟨Ne.symm hline, fun y ⟨hy, hl⟩ => ?_⟩
    cases hk : y.kept with
    | false => exact hleft y hy hk hl
    | true =>
      have hmem : y.line ∈ before.map Stmt.line := hkept ▸ List.mem_map_of_mem (List.mem_filter.mpr ⟨hy, hk⟩)
      obtain ⟨t, ht, hline⟩ := List.mem_map.mp hmem
      exact hbefore t ht (hline.trans hl)

/-- The lines of flagged statements rise. -/
theorem flagged_rise : (((lexicalAll body).filter Stmt.step).map Stmt.line).Pairwise (· < ·) := by
  refine List.pairwise_map.mpr (List.pairwise_filter.mpr (pairwise_of_splits fun before s after hbody t ht _ hs => ?_))
  obtain ⟨ys, zs, rfl, hkept, hiff⟩ := step_iff hflags hascend hbody
  refine Nat.lt_of_le_of_ne ?_ ((hiff.mp hs).2.1 t ht)
  have hmem : t.line ∈ keptLines ys := hkept ▸ List.mem_map_of_mem ht
  have hlines : (startLines ys ++ s.line :: startLines zs).Pairwise (· ≤ ·) := by
    have htail := hascend.of_cons
    rwa [startLines_append] at htail
  refine (List.pairwise_append.mp hlines).2.2 t.line ?_ s.line List.mem_cons_self
  obtain ⟨y, hy, hline⟩ := List.mem_map.mp hmem
  exact List.mem_map.mpr ⟨y, (List.mem_filter.mp hy).1, hline⟩

/-- A statement that is the first to start on its line is flagged. -/
theorem exists_flagged {line : Nat} {ys zs : List Start} (hxs : xs = ys ++ ⟨line, true⟩ :: zs) (hline : line ≠ line₀)
    (hys : ∀ y ∈ ys, y.line ≠ line) : ∃ s ∈ lexicalAll body, s.step = true ∧ s.line = line := by
  subst hxs
  have hlast : lastLine (some line₀) ys ≠ some line := by
    rw [Ne, lastLine_eq (ascend_to hascend)]
    rintro (h | ⟨y, hy, h⟩)
    · exact hline h.symm
    · exact hys y hy h
  have hmem : (line, true) ∈ stepFlags body := by
    rw [hflags, flagsFrom_append, flagsFrom, if_pos rfl, bne_iff_ne.mpr hlast]
    exact List.mem_append_right _ List.mem_cons_self
  obtain ⟨s, hs, heq⟩ := List.mem_map.mp hmem
  obtain ⟨hl, hstep⟩ := Prod.mk.inj heq
  exact ⟨s, hs, hstep, hl⟩

end Body

/-- One step probe for each line of the function `f` that the text gives as `g`. -/
structure Probed (g : Surface.Function) (f : Function) : Prop where
  name_eq : g.name = f.name
  line_eq : g.pos.line = f.line
  /-- The statements in lexical order and the starts that are kept belong to each other. A statement is flagged
  exactly if it is the first on its line, the line is not that of the head, and nothing that is left out starts on
  the line before it: the first clause of a `for` statement, or a statement in the body of a `do` statement whose
  condition cannot be expressed. -/
  step_iff : ∀ before s after, lexicalAll f.body = before ++ s :: after →
    ∃ xs ys, startsAll g.body = xs ++ ⟨s.line, true⟩ :: ys ∧ keptLines xs = before.map Stmt.line ∧
      (s.step = true ↔ s.line ≠ f.line ∧ (∀ t ∈ before, t.line ≠ s.line) ∧
        ∀ x ∈ xs, x.kept = false → x.line ≠ s.line)
  /-- The flagged lines rise. -/
  rise : (((lexicalAll f.body).filter Stmt.step).map Stmt.line).Pairwise (· < ·)
  /-- A line below the head on which a statement is the first to start has one that is flagged. -/
  reached : ∀ line xs ys, startsAll g.body = xs ++ ⟨line, true⟩ :: ys → line ≠ f.line →
    (∀ x ∈ xs, x.line ≠ line) → ∃ s ∈ lexicalAll f.body, s.step = true ∧ s.line = line

/-- In every function of every translated program the statements are probed once for each line. -/
theorem steps_translate {source : String} {f : Function} (hf : f ∈ (translate source).functions) :
    ∃ g, .function g ∈ Surface.parse source ∧ Probed g f := by
  obtain ⟨g, hg, hlowers⟩ := lowers_of_mem_translate hf
  obtain ⟨hname, hline, hflags⟩ := hlowers.flags
  have hascend : (f.line :: startLines (startsAll g.body)).Pairwise (· ≤ ·) := hline ▸ Surface.parse_starts_ascend hg
  refine ⟨g, hg, hname, hline, fun before s after hbody => ?_, flagged_rise hflags hascend,
    fun line xs ys hxs hne hfirst => exists_flagged hflags hascend hxs hne hfirst⟩
  exact step_iff hflags hascend hbody

/-- A `for` statement whose first clause and whose body stand on the same line, below its own. -/
def splitHeader : String := "void f(int n) \x7b\n for (\n  int i = n; i < n; i++) i;\n\x7d"

/-- The loop is flagged, and its body is not, though no other statement starts on its line. -/
theorem translate_splitHeader :
    ∃ init cond update, (translate splitHeader).functions =
      [⟨"f", [⟨"n", false⟩], [.forLoop 2 true init cond update [.act 3 false (.eval (.var "i"))]], 1, 4⟩] := by
  have hscan : Scan.scan splitHeader = [⟨.word .void, ⟨1, 1⟩⟩, ⟨.name "f", ⟨1, 6⟩⟩, ⟨.mark .lparen, ⟨1, 7⟩⟩,
      ⟨.word .int, ⟨1, 8⟩⟩, ⟨.name "n", ⟨1, 12⟩⟩, ⟨.mark .rparen, ⟨1, 13⟩⟩, ⟨.mark .lbrace, ⟨1, 15⟩⟩,
      ⟨.word .forWord, ⟨2, 2⟩⟩, ⟨.mark .lparen, ⟨2, 6⟩⟩, ⟨.word .int, ⟨3, 3⟩⟩, ⟨.name "i", ⟨3, 7⟩⟩, ⟨.mark .eq, ⟨3, 9⟩⟩,
      ⟨.name "n", ⟨3, 11⟩⟩, ⟨.mark .semicolon, ⟨3, 12⟩⟩, ⟨.name "i", ⟨3, 14⟩⟩, ⟨.mark .lt, ⟨3, 16⟩⟩,
      ⟨.name "n", ⟨3, 18⟩⟩, ⟨.mark .semicolon, ⟨3, 19⟩⟩, ⟨.name "i", ⟨3, 21⟩⟩, ⟨.mark .plusPlus, ⟨3, 22⟩⟩,
      ⟨.mark .rparen, ⟨3, 24⟩⟩, ⟨.name "i", ⟨3, 26⟩⟩, ⟨.mark .semicolon, ⟨3, 27⟩⟩, ⟨.mark .rbrace, ⟨4, 1⟩⟩, ⟨.eof, ⟨4, 2⟩⟩] := by
    show Scan.scan "void f(int n) \x7b\n for (\n  int i = n; i < n; i++) i;\n\x7d" = _
    cbv
  have hparse : Surface.parse splitHeader = [.function ⟨"f", .scalar .void false false,
      [⟨"n", .scalar .int false false⟩],
      [.forLoop (.decl ⟨"i", .scalar .int false false, some (.var "n" ⟨3, 11⟩), ⟨3, 7⟩⟩)
        (some (.binary .lt (.var "i" ⟨3, 14⟩) (.var "n" ⟨3, 18⟩) ⟨3, 16⟩))
        (some (.unary .postInc (.var "i" ⟨3, 21⟩) ⟨3, 22⟩)) [.expr (.var "i" ⟨3, 26⟩) ⟨3, 26⟩] ⟨2, 2⟩],
      ⟨1, 6⟩, ⟨4, 1⟩⟩] :=
    Surface.parse_of_item hscan (by simp) fun n => rfl
  unfold translate
  rw [hparse]
  exact ⟨_, _, _, rfl⟩

theorem steps_translate_splitHeader :
    ∃ f, f ∈ (translate splitHeader).functions ∧
      ∃ g, .function g ∈ Surface.parse splitHeader ∧ Probed g f := by
  obtain ⟨init, cond, update, hfunctions⟩ := translate_splitHeader
  have hf := List.mem_singleton_self (α := Function)
    ⟨"f", [⟨"n", false⟩], [.forLoop 2 true init cond update [.act 3 false (.eval (.var "i"))]], 1, 4⟩
  exact ⟨_, hfunctions ▸ hf, steps_translate (hfunctions ▸ hf)⟩

/-- It is not so that a statement is flagged whenever it is the first on its line. -/
theorem not_step_iff_first :
    ¬ ∀ (source : String) (f : Function), f ∈ (translate source).functions →
      ∀ before s after, lexicalAll f.body = before ++ s :: after →
        (s.step = true ↔ s.line ≠ f.line ∧ ∀ t ∈ before, t.line ≠ s.line) := by
  intro h
  obtain ⟨init, cond, update, hfunctions⟩ := translate_splitHeader
  have hbody := h splitHeader _ (hfunctions ▸ List.mem_singleton_self _)
    [.forLoop 2 true init cond update [.act 3 false (.eval (.var "i"))]] (.act 3 false (.eval (.var "i"))) [] rfl
  have hstep := hbody.mpr ⟨by simp [Stmt.line], by simp [Stmt.line]⟩
  cases hstep

end CallTrace.Instrumented
