import CallTrace.Proofs.Heap.Copy
import CallTrace.Proofs.Stack

/-! # Who owns a cell

* `Frame.Holds f v`: the value `v` is that of a variable of the frame, or is hidden by one.
* `Frame.Owns f h c`: the cell `c` can be reached from a value that the frame holds.
* `Separate h fs`: no cell has two owners among the frames `fs`, and the values of all of them are grounded.
* `CallStack.owners`: the frames of all calls and the one at top level. `CallStack.Holds`: what the innermost
  call can get at, which is its own frame and the one at top level.
-/

namespace CallTrace
set_option autoImplicit false

/-! ## Frames -/

namespace Frame

/-- The value is that of a variable, or comes back when a scope ends. -/
def Holds (f : Frame) (v : Value) : Prop :=
  (∃ name, (name, v) ∈ f.vars) ∨ ∃ s ∈ f.scopes, ∃ name, (name, v) ∈ s.shadowed

/-- The cell can be reached from a value of the frame. -/
def Owns (f : Frame) (h : Heap) (c : CellId) : Prop := ∃ v, f.Holds v ∧ h.Reaches v c

variable {f : Frame} {v w : Value} {name : String}

theorem holds_of_lookup (h : f.lookup name = some v) : f.Holds v :=
  .inl ⟨name, Assoc.mem_of_lookup h⟩

theorem not_holds_new (name : String) : ¬ (Frame.new name).Holds v := by
  rintro (⟨_, h⟩ | ⟨_, h, _⟩) <;> cases h

theorem holds_pushScope : f.pushScope.Holds v ↔ f.Holds v := by
  constructor
  · rintro (h | ⟨s, hs, h⟩)
    · exact .inl h
    · rcases List.mem_cons.mp hs with rfl | hs
      · obtain ⟨_, h⟩ := h
        cases h
      · exact .inr ⟨s, hs, h⟩
  · rintro (h | ⟨s, hs, h⟩)
    · exact .inl h
    · exact .inr ⟨s, List.mem_cons_of_mem _ hs, h⟩

theorem holds_of_assign (h : (f.assign name v).Holds w) : f.Holds w ∨ w = v := by
  rcases h with ⟨n, h⟩ | h
  · rcases Assoc.mem_put h with h | h
    · exact .inl (.inl ⟨n, h⟩)
    · exact .inr (Prod.mk.inj h).2
  · exact .inl (.inr h)

/-- The values that a declaration hides were there before. -/
theorem holds_of_declare (h : (f.declare name v).Holds w) : f.Holds w ∨ w = v := by
  rcases h with ⟨n, h⟩ | ⟨s, hs, n, h⟩
  · rcases Assoc.mem_put h with h | h
    · exact .inl (.inl ⟨n, h⟩)
    · exact .inr (Prod.mk.inj h).2
  · left
    simp only [declare] at hs
    cases hscopes : f.scopes with
    | nil =>
      rw [hscopes] at hs
      cases hs
    | cons t rest =>
      have hrest (ht : s ∈ rest) : f.Holds w :=
        .inr ⟨s, hscopes ▸ List.mem_cons_of_mem t ht, n, h⟩
      have hhead (ht : (n, w) ∈ t.shadowed) : f.Holds w :=
        .inr ⟨t, hscopes ▸ List.mem_cons_self, n, ht⟩
      rw [hscopes] at hs
      dsimp only at hs
      split at hs
      · rcases List.mem_cons.mp hs with rfl | hs
        · exact hhead h
        · exact hrest hs
      · next old hold =>
        split at hs
        · rcases List.mem_cons.mp hs with rfl | hs
          · exact hhead h
          · exact hrest hs
        · rcases List.mem_cons.mp hs with rfl | hs
          · rcases List.mem_append.mp h with h | h
            · exact hhead h
            · obtain ⟨-, rfl⟩ := Prod.mk.inj (List.mem_singleton.mp h)
              exact holds_of_lookup hold
          · exact hrest hs

theorem mem_of_mem_removes {names : List String} {vars : Assoc Value} {x : String × Value}
    (h : x ∈ names.foldl (fun vars name => vars.remove name) vars) : x ∈ vars := by
  induction names generalizing vars with
  | nil => exact h
  | cons name names ih => exact Assoc.mem_of_mem_remove (ih h)

theorem mem_of_mem_puts {entries : Assoc Value} {vars : Assoc Value} {n : String}
    (h : (n, v) ∈ entries.foldl (fun vars (name, value) => vars.put name value) vars) :
    (n, v) ∈ vars ∨ ∃ name, (name, v) ∈ entries := by
  induction entries generalizing vars with
  | nil => exact .inl h
  | cons x entries ih =>
    rcases ih h with h | ⟨name, h⟩
    · rcases Assoc.mem_put h with h | h
      · exact .inl h
      · obtain ⟨-, rfl⟩ := Prod.mk.inj h
        exact .inr ⟨x.1, List.mem_cons_self⟩
    · exact .inr ⟨name, List.mem_cons_of_mem x h⟩

/-- The values that come back when a scope ends were hidden in it. -/
theorem holds_of_popScope (h : f.popScope.Holds v) : f.Holds v := by
  unfold popScope at h
  split at h
  · exact h
  · next s rest hscopes =>
    rcases h with ⟨n, h⟩ | ⟨t, ht, h⟩
    · rcases mem_of_mem_puts h with h | h
      · exact .inl ⟨n, mem_of_mem_removes h⟩
      · exact .inr ⟨s, hscopes ▸ List.mem_cons_self, h⟩
    · exact .inr ⟨t, hscopes ▸ List.mem_cons_of_mem s ht, h⟩

end Frame

/-! ## Separate frames -/

/-- The cells of the value have no owner among some frames. -/
def Unowned (h : Heap) (fs : List Frame) (v : Value) : Prop :=
  ∀ c, h.Reaches v c → ∀ f ∈ fs, ¬ f.Owns h c

/-- The values of some frames are grounded, and no cell has two owners among them. -/
structure Separate (h : Heap) (fs : List Frame) : Prop where
  grounded : ∀ f ∈ fs, ∀ v, f.Holds v → h.Grounded v
  disjoint : fs.Pairwise fun f g => ∀ c, f.Owns h c → ¬ g.Owns h c

namespace Separate

variable {h h' : Heap} {fs gs l l' : List Frame} {f g : Frame} {v : Value} {c : CellId}

theorem nil (h : Heap) : Separate h [] := ⟨fun _ hf => (nomatch hf), .nil⟩

theorem perm (hs : Separate h fs) (hp : fs.Perm gs) : Separate h gs where
  grounded f hf := hs.grounded f (hp.mem_iff.mpr hf)
  disjoint := hs.disjoint.perm hp fun hfg c hg hf => hfg c hf hg

theorem cons (hs : Separate h fs) (hf : ∀ v, f.Holds v → h.Grounded v ∧ Unowned h fs v) :
    Separate h (f :: fs) where
  grounded g hg v hv := by
    rcases List.mem_cons.mp hg with rfl | hg
    · exact (hf v hv).1
    · exact hs.grounded g hg v hv
  disjoint := List.pairwise_cons.mpr
    ⟨fun g hg c ⟨v, hv, hc⟩ => (hf v hv).2 c hc g hg, hs.disjoint⟩

theorem of_cons (hs : Separate h (f :: fs)) : Separate h fs :=
  ⟨fun g hg => hs.grounded g (List.mem_cons_of_mem f hg), (List.pairwise_cons.mp hs.disjoint).2⟩

theorem head (hs : Separate h (f :: fs)) (hv : f.Holds v) : h.Grounded v ∧ Unowned h fs v :=
  ⟨hs.grounded f List.mem_cons_self v hv, fun c hc g hg =>
    (List.pairwise_cons.mp hs.disjoint).1 g hg c ⟨v, hv, hc⟩⟩

/-- A frame may get new values whose cells have no owner. -/
theorem replace (hs : Separate h (l ++ f :: l'))
    (hg : ∀ v, g.Holds v → f.Holds v ∨ h.Grounded v ∧ Unowned h (l ++ f :: l') v) :
    Separate h (l ++ g :: l') := by
  have hhead : Separate h (f :: (l ++ l')) := hs.perm List.perm_middle
  refine (hhead.of_cons.cons fun v hv => ?_).perm List.perm_middle.symm
  rcases hg v hv with hv | ⟨hground, hfree⟩
  · exact hhead.head hv
  · exact ⟨hground, fun c hc k hk => hfree c hc k
      (List.perm_middle.mem_iff.mpr (List.mem_cons_of_mem f hk))⟩

theorem insert (hs : Separate h (l ++ l'))
    (hg : ∀ v, g.Holds v → h.Grounded v ∧ Unowned h (l ++ l') v) : Separate h (l ++ g :: l') :=
  (hs.cons hg).perm List.perm_middle.symm

theorem remove (hs : Separate h (l ++ f :: l')) : Separate h (l ++ l') :=
  (hs.perm List.perm_middle).of_cons

theorem lt_size (hs : Separate h fs) (hf : f ∈ fs) (hc : f.Owns h c) : c < h.cells.size := by
  obtain ⟨v, hv, hc⟩ := hc
  exact (hs.grounded f hf v hv).lt_size hc

/-! ## Changes of the heap -/

/-- A frame owns the same cells when they stay the same. -/
theorem owns_congr (hsame : ∀ c, f.Owns h c → h'.items c = h.items c) :
    f.Owns h' c ↔ f.Owns h c := by
  have hiff (v : Value) (hv : f.Holds v) : h'.Reaches v c ↔ h.Reaches v c :=
    Heap.Reaches.congr fun d hd => hsame d ⟨v, hv, hd⟩
  exact exists_congr fun v => and_congr_right (hiff v)

theorem congr (hs : Separate h fs) (hsize : h.cells.size ≤ h'.cells.size)
    (hsame : ∀ f ∈ fs, ∀ c, f.Owns h c → h'.items c = h.items c) : Separate h' fs where
  grounded f hf v hv := (hs.grounded f hf v hv).congr hsize fun c hc => hsame f hf c ⟨v, hv, hc⟩
  disjoint := hs.disjoint.imp_of_mem fun hf hg hfg c hc hc' =>
    hfg c ((owns_congr (hsame _ hf)).mp hc) ((owns_congr (hsame _ hg)).mp hc')

theorem of_extends (hs : Separate h fs) (e : h.Extends h') : Separate h' fs :=
  hs.congr e.size fun _ hf c hc => e.old c (hs.lt_size hf hc)

theorem unowned_of_extends (hs : Separate h fs) (e : h.Extends h')
    (hv : ∀ c, h'.Reaches v c → h.cells.size ≤ c) : Unowned h' fs v := by
  intro c hc f hf howns
  have howns : f.Owns h c := (owns_congr fun d hd => e.old d (hs.lt_size hf hd)).mp howns
  exact absurd (hs.lt_size hf howns) (Nat.not_lt_of_le (hv c hc))

/-- Values whose cells have no owner may be stored in a cell. -/
theorem update {k : Array Value → Array Value} (hs : Separate h fs)
    (hnew : ∀ w ∈ k (h.items c), w ∈ h.items c ∨ h.Grounded w ∧ Unowned h fs w) :
    Separate (h.update c k) fs where
  grounded f hf v hv := by
    by_cases hr : h.Reaches v c
    · refine (hs.grounded f hf v hv).update fun w hw => (hnew w hw).imp_right fun ⟨hground, hfree⟩ => ?_
      exact hground.update_of_not_reaches fun hc => hfree c hc f hf ⟨v, hv, hr⟩
    · exact (hs.grounded f hf v hv).update_of_not_reaches hr
  disjoint := by
    have howns {f : Frame} {d : CellId} : f.Owns (h.update c k) d → f.Owns h d ∨
        f.Owns h c ∧ ∃ w, Unowned h fs w ∧ h.Reaches w d := by
      rintro ⟨v, hv, hd⟩
      rcases Heap.reaches_update (fun w hw => (hnew w hw).imp_right And.right) hd with hd | ⟨hc, hw⟩
      · exact .inl ⟨v, hv, hd⟩
      · exact .inr ⟨⟨v, hv, hc⟩, hw⟩
    refine hs.disjoint.imp_of_mem fun {f g} hf hg hfg d hd hd' => ?_
    rcases howns hd with hd | ⟨hc, w, hw, hwd⟩ <;> rcases howns hd' with hd' | ⟨hc', w', hw', hwd'⟩
    · exact hfg d hd hd'
    · exact hw' d hwd' f hf hd
    · exact hw d hwd g hg hd'
    · exact hfg c hc hc'

end Separate

/-! ## The variables of a run -/

namespace CallStack

variable {s t : CallStack} {h : Heap} {v w : Value} {name : String} {p : Value → Prop}

/-- The frames that can own cells. -/
def owners (s : CallStack) : List Frame := s.globals :: s.frames

/-- The value is one of the innermost call or at top level. -/
def Holds (s : CallStack) (v : Value) : Prop :=
  s.globals.Holds v ∨ ∃ f ∈ s.frames.head?, f.Holds v

/-- The cell can be reached from a value of the innermost call or at top level. -/
def Accesses (s : CallStack) (h : Heap) (c : CellId) : Prop := ∃ v, s.Holds v ∧ h.Reaches v c

theorem holds_of_lookup (h : s.lookup name = some v) : s.Holds v := by
  obtain ⟨globals, frames, n, hn⟩ := s
  cases frames with
  | nil => exact .inl (Frame.holds_of_lookup h)
  | cons f rest =>
    rcases Option.or_eq_some_iff.mp h with h | ⟨-, h⟩
    · exact .inr ⟨f, rfl, Frame.holds_of_lookup h⟩
    · exact .inl (Frame.holds_of_lookup h)

/-- What the innermost call can get at is owned by a frame. -/
theorem Holds.owner (hv : s.Holds v) : ∃ f ∈ s.owners, f.Holds v := by
  rcases hv with hv | ⟨f, hf, hv⟩
  · exact ⟨s.globals, List.mem_cons_self, hv⟩
  · exact ⟨f, List.mem_cons_of_mem _ (List.mem_of_mem_head? hf), hv⟩

theorem Accesses.owner {c : CellId} (hc : s.Accesses h c) : ∃ f ∈ s.owners, f.Owns h c := by
  obtain ⟨v, hv, hc⟩ := hc
  obtain ⟨f, hf, hv⟩ := hv.owner
  exact ⟨f, hf, v, hv, hc⟩

/-- What the innermost call can get at belongs to none of its callers. -/
theorem not_accesses_of_tail {f : Frame} {c : CellId} (hs : Separate h s.owners)
    (hf : f ∈ s.frames.tail) (hc : f.Owns h c) : ¬ s.Accesses h c := by
  obtain ⟨globals, frames, n, hn⟩ := s
  cases frames with
  | nil => cases hf
  | cons top rest =>
    obtain ⟨hglobals, htop⟩ := List.pairwise_cons.mp hs.disjoint
    rintro ⟨v, hv | ⟨g, hg, hv⟩, hr⟩
    · exact hglobals f (List.mem_cons_of_mem top hf) c ⟨v, hv, hr⟩ hc
    · obtain rfl := Option.some.inj hg
      exact (List.pairwise_cons.mp htop).1 f hf c ⟨v, hv, hr⟩ hc

/-- A frame is that of the innermost call, the one at top level, or that of a caller. -/
theorem owners_cases {f : Frame} {c : CellId} (hf : f ∈ s.owners) (hc : f.Owns h c) :
    s.Accesses h c ∨ f ∈ s.frames.tail := by
  obtain ⟨v, hv, hc⟩ := hc
  rcases List.mem_cons.mp hf with rfl | hf
  · exact .inl ⟨v, .inl hv, hc⟩
  · obtain ⟨globals, frames, n, hn⟩ := s
    cases frames with
    | nil => cases hf
    | cons top rest =>
      rcases List.mem_cons.mp hf with rfl | hf
      · exact .inl ⟨v, .inr ⟨f, rfl, hv⟩, hc⟩
      · exact .inr hf

/-! ### The innermost frame -/

theorem holds_of_updateCurrent {g : Frame → Frame}
    (hg : ∀ f w, (g f).Holds w → f.Holds w ∨ p w) (hw : (s.updateCurrent g).Holds w) :
    s.Holds w ∨ p w := by
  obtain ⟨globals, frames, n, hn⟩ := s
  cases frames with
  | nil =>
    rcases hw with hw | ⟨f, hf, -⟩
    · exact (hg globals w hw).imp_left .inl
    · cases hf
  | cons f rest =>
    rcases hw with hw | ⟨f', hf, hw⟩
    · exact .inl (.inl hw)
    · obtain rfl := Option.some.inj hf
      exact (hg f w hw).imp_left fun hw => .inr ⟨f, rfl, hw⟩

theorem separate_updateCurrent {g : Frame → Frame} (hs : Separate h s.owners)
    (hg : ∀ f w, (g f).Holds w → f.Holds w ∨ h.Grounded w ∧ Unowned h s.owners w) :
    Separate h (s.updateCurrent g).owners := by
  obtain ⟨globals, frames, n, hn⟩ := s
  cases frames with
  | nil => exact Separate.replace (l := []) hs (hg globals)
  | cons f rest => exact Separate.replace (l := [globals]) hs (hg f)

/-- An assignment changes the innermost frame or the one at top level. -/
theorem assign_cases (h : s.assign? name v = some t) :
    t = s.updateCurrent (·.assign name v) ∨ t = { s with globals := s.globals.assign name v } := by
  unfold assign? at h
  split at h
  · exact .inl (Option.some.inj h).symm
  · split at h
    · exact .inr (Option.some.inj h).symm
    · cases h

theorem holds_of_assign (ht : s.assign? name v = some t) (hw : t.Holds w) : s.Holds w ∨ w = v := by
  rcases assign_cases ht with rfl | rfl
  · exact holds_of_updateCurrent (fun f w => Frame.holds_of_assign) hw
  · rcases hw with hw | hw
    · exact (Frame.holds_of_assign hw).imp_left .inl
    · exact .inl (.inr hw)

theorem separate_assign (hs : Separate h s.owners) (hv : h.Grounded v ∧ Unowned h s.owners v)
    (ht : s.assign? name v = some t) : Separate h t.owners := by
  have hassign (f : Frame) (w : Value) (hw : (f.assign name v).Holds w) :
      f.Holds w ∨ h.Grounded w ∧ Unowned h s.owners w := by
    rcases Frame.holds_of_assign hw with hw | rfl
    · exact .inl hw
    · exact .inr hv
  rcases assign_cases ht with rfl | rfl
  · exact separate_updateCurrent hs hassign
  · exact Separate.replace (l := []) hs (hassign s.globals)

theorem holds_of_declare (hw : (s.declare name v).Holds w) : s.Holds w ∨ w = v :=
  holds_of_updateCurrent (fun _ _ => Frame.holds_of_declare) hw

theorem separate_declare (hs : Separate h s.owners) (hv : h.Grounded v ∧ Unowned h s.owners v) :
    Separate h (s.declare name v).owners := by
  refine separate_updateCurrent hs fun f w hw => ?_
  rcases Frame.holds_of_declare hw with hw | rfl
  · exact .inl hw
  · exact .inr hv

theorem holds_pushScope : s.pushScope.Holds v ↔ s.Holds v := by
  obtain ⟨globals, frames, n, hn⟩ := s
  cases frames with
  | nil => simp [Holds, pushScope, updateCurrent, Frame.holds_pushScope]
  | cons f rest => simp [Holds, pushScope, updateCurrent, Frame.holds_pushScope]

theorem separate_pushScope (hs : Separate h s.owners) : Separate h s.pushScope.owners :=
  separate_updateCurrent hs fun _ _ hw => .inl (Frame.holds_pushScope.mp hw)

theorem holds_of_popScope (hw : s.popScope.Holds w) : s.Holds w :=
  (holds_of_updateCurrent (p := fun _ => False) (fun _ _ hw => .inl (Frame.holds_of_popScope hw)) hw).elim
    id False.elim

theorem separate_popScope (hs : Separate h s.owners) : Separate h s.popScope.owners :=
  separate_updateCurrent hs fun _ _ hw => .inl (Frame.holds_of_popScope hw)

/-! ### Calls -/

/-- The frame of a call holds the values of the parameters. -/
theorem declares_pushFrame (s : CallStack) (name : String) (vars : List (String × Value)) :
    ∃ f, (vars.foldl (fun s (name, v) => s.declare name v) (s.pushFrame name)).globals = s.globals ∧
      (vars.foldl (fun s (name, v) => s.declare name v) (s.pushFrame name)).frames = f :: s.frames ∧
      ∀ w, f.Holds w → ∃ b ∈ vars, w = b.2 := by
  suffices ∀ (t : CallStack) (f : Frame), t.globals = s.globals → t.frames = f :: s.frames →
      ∃ f', (vars.foldl (fun s (name, v) => s.declare name v) t).globals = s.globals ∧
        (vars.foldl (fun s (name, v) => s.declare name v) t).frames = f' :: s.frames ∧
        ∀ w, f'.Holds w → f.Holds w ∨ ∃ b ∈ vars, w = b.2 by
    obtain ⟨f, hglobals, hframes, hf⟩ := this (s.pushFrame name) (.new name) rfl rfl
    exact ⟨f, hglobals, hframes, fun w hw => (hf w hw).resolve_left (Frame.not_holds_new name)⟩
  induction vars with
  | nil => exact fun t f hglobals hframes => ⟨f, hglobals, hframes, fun _ => .inl⟩
  | cons b vars ih =>
    intro t f hglobals hframes
    obtain ⟨globals, frames, n, hn⟩ := t
    obtain rfl : frames = f :: s.frames := hframes
    obtain ⟨f', hglobals', hframes', hf'⟩ := ih (CallStack.declare ⟨globals, f :: s.frames, n, hn⟩ b.1 b.2)
      (f.declare b.1 b.2) hglobals rfl
    refine ⟨f', hglobals', hframes', fun w hw => ?_⟩
    rcases hf' w hw with hw | ⟨b', hb', hw⟩
    · rcases Frame.holds_of_declare hw with hw | rfl
      · exact .inl hw
      · exact .inr ⟨b, List.mem_cons_self, rfl⟩
    · exact .inr ⟨b', List.mem_cons_of_mem b hb', hw⟩

/-- A new call can get at the frame at top level and at the values of its parameters. -/
theorem holds_of_call {vars : List (String × Value)}
    (hw : (vars.foldl (fun s (name, v) => s.declare name v) (s.pushFrame name)).Holds w) :
    s.Holds w ∨ ∃ b ∈ vars, w = b.2 := by
  obtain ⟨f, hglobals, hframes, hf⟩ := declares_pushFrame s name vars
  rcases hw with hw | ⟨g, hg, hw⟩
  · exact .inl (.inl (hglobals ▸ hw))
  · rw [hframes] at hg
    obtain rfl := Option.some.inj hg
    exact .inr (hf w hw)

theorem separate_call {vars : List (String × Value)} (hs : Separate h s.owners)
    (hvars : ∀ b ∈ vars, h.Grounded b.2 ∧ Unowned h s.owners b.2) :
    Separate h (vars.foldl (fun s (name, v) => s.declare name v) (s.pushFrame name)).owners := by
  obtain ⟨f, hglobals, hframes, hf⟩ := declares_pushFrame s name vars
  rw [owners, hglobals, hframes]
  refine Separate.insert (l := [s.globals]) hs fun v hv => ?_
  obtain ⟨b, hb, rfl⟩ := hf v hv
  exact hvars b hb

@[simp] theorem globals_popFrame (s : CallStack) : s.popFrame.globals = s.globals := by
  obtain ⟨globals, frames, n, hn⟩ := s
  cases frames <;> rfl

theorem separate_popFrame (hs : Separate h s.owners) : Separate h s.popFrame.owners := by
  obtain ⟨globals, frames, n, hn⟩ := s
  cases frames with
  | nil => exact hs
  | cons f rest => exact Separate.remove (l := [globals]) hs

end CallStack

end CallTrace
