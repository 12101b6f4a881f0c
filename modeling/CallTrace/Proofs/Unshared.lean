import CallTrace.Proofs.Bracketing
import CallTrace.Proofs.Evaluation.Silent
import CallTrace.Proofs.Roots
import CallTrace.Proofs.ValueSemantics

/-! # No two variables share a list

In a program without references every variable has its own lists, and nothing but its own call changes what is
recorded for a call.

* `Recorder.Spares`: only the latest active activation has changed.
* `Recorder.Shown`: the latest event shows what is recorded for the latest active call, if it is about a variable.
* `Exec.Steady`: an expression gives the local variables no list of another one, and spares the callers.
* `Exec.unshared`: the contract that the variables are rooted and expressions steady.
-/

namespace CallTrace
set_option autoImplicit false

namespace Recorder

/-! ## Other activations -/

/-- From `r` to `s`, no activation of `r` has changed but the latest active one. -/
structure Spares (r s : Recorder) : Prop where
  size : r.frames.size ≤ s.frames.size
  kept : ∀ id < r.frames.size, r.active.head? ≠ some id → s.frames[id]? = r.frames[id]?

variable {r s t : Recorder} {a b : Activation}

namespace Spares

theorem refl (r : Recorder) : Spares r r := ⟨Nat.le_refl _, fun _ _ _ => rfl⟩

theorem trans (h : Spares r s) (hactive : s.active = r.active) (h' : Spares s t) : Spares r t where
  size := Nat.le_trans h.size h'.size
  kept id hid hne := by
    rw [h'.kept id (Nat.lt_of_lt_of_le hid h.size) (hactive ▸ hne), h.kept id hid hne]

theorem of_frames (hf : s.frames = r.frames) : Spares r s :=
  ⟨Nat.le_of_eq (congrArg Array.size hf.symm), fun _ _ _ => by rw [hf]⟩

theorem of_setLatest (ha : r.Latest a) (hf : s.frames = r.frames.setIfInBounds a.id b) : Spares r s := by
  obtain ⟨rest, hactive⟩ := ha.active
  refine ⟨Nat.le_of_eq (by rw [hf, Array.size_setIfInBounds]), fun id _ hne => ?_⟩
  rw [hf, Array.getElem?_setIfInBounds_ne]
  rintro rfl
  exact hne (by rw [hactive]; rfl)

end Spares

theorem Sound.spares_set (h : r.Sound) (name : String) (value : Snapshot) (line : Option Nat) :
    (r.set name value line).active = r.active ∧ Spares r (r.set name value line) := by
  rcases h.set_cases name value line with ⟨-, he⟩ | ⟨a, ha, he⟩ <;> rw [he]
  · exact ⟨rfl, .refl r⟩
  · exact ⟨rfl, .of_setLatest ha (frames_assigned ..)⟩

theorem Sound.spares_step (h : r.Sound) (message : String) (line : Option Nat) :
    (r.step message line).active = r.active ∧ Spares r (r.step message line) := by
  rcases h.step_cases message line with ⟨-, he⟩ | ⟨a, -, he⟩ <;> rw [he]
  · exact ⟨rfl, .refl r⟩
  · exact ⟨rfl, .of_frames rfl⟩

theorem Sound.spares_ret (h : r.Sound) (value : Snapshot) (line : Option Nat) :
    (r.ret value line).active = r.active.tail ∧ Spares r (r.ret value line) := by
  rcases h.ret_cases value line with ⟨hnil, he⟩ | ⟨a, ha, he⟩ <;> rw [he]
  · exact ⟨by rw [hnil]; rfl, .refl r⟩
  · exact ⟨active_returned .., .of_setLatest ha (frames_returned ..)⟩

/-- What happens in a call and at its end spares the activations that there were before it. -/
theorem Spares.getElem?_of_call {name : String} {args : List (String × Snapshot)} {line : Option Nat}
    (h : Spares (r.call name args line) s) {id : FrameId} (hid : id < r.frames.size) :
    s.frames[id]? = r.frames[id]? := by
  have hlt : id < (r.call name args line).frames.size := by
    rw [frames_call, Array.size_push]
    exact Nat.lt_succ_of_lt hid
  have hne : (r.call name args line).active.head? ≠ some id := fun he =>
    Nat.lt_irrefl id (Option.some.inj he ▸ hid)
  rw [h.kept id hlt hne, frames_call, Array.getElem?_push_lt hid, Array.getElem?_eq_getElem hid]

theorem Spares.of_call {name : String} {args : List (String × Snapshot)} {line : Option Nat}
    (h : Spares (r.call name args line) s) : Spares r s where
  size := by
    have hsize := h.size
    rw [frames_call, Array.size_push] at hsize
    exact Nat.le_of_succ_le hsize
  kept _ hid _ := h.getElem?_of_call hid

/-! ## The latest event -/

/-- In what is recorded for a call each variable stands once. -/
def Listed (r : Recorder) : Prop :=
  ∀ (i : Nat) (a : Activation), r.frames[i]? = some a → a.locals.names.Nodup

theorem Listed.of_set (h : r.Listed) {i : Nat} (hf : s.frames = r.frames.setIfInBounds i b)
    (hb : b.locals.names.Nodup) : s.Listed := by
  intro j c hc
  rw [hf, Array.getElem?_setIfInBounds] at hc
  split at hc
  · split at hc
    · obtain rfl := Option.some.inj hc
      exact hb
    · cases hc
  · exact h j c hc

theorem Listed.of_step (h : r.Listed) (hstep : Step r s) : s.Listed := by
  cases hstep with
  | stay => exact h
  | reset => exact fun i a ha => (nomatch ha)
  | call name args line =>
    intro i a ha
    rw [frames_call, Array.getElem?_push] at ha
    split at ha
    · obtain rfl := Option.some.inj ha
      exact List.nodup_nil
    · exact h i a ha
  | @ret a ha value line => exact h.of_set (frames_returned ..) (h a.id a ha.stored)
  | @set a ha name value line =>
    exact h.of_set (frames_assigned ..) (Assoc.nodup_names_put (h a.id a ha.stored) name value)
  | log text line | step ha message line => exact h

/-- If the latest event is that a variable got a value, it belongs to the latest active call, and shows the
variables that are recorded for it, each once. -/
structure Shown (r : Recorder) : Prop where
  listed : r.Listed
  latest : ∀ e name value locals, r.events.back? = some e → e.payload = .set name value locals →
    ∃ a, r.Latest a ∧ e.frameId = some a.id ∧ a.locals = locals

namespace Shown

theorem empty : Shown .empty := ⟨fun _ _ ha => (nomatch ha), fun _ _ _ _ he => (nomatch he)⟩

/-- Other events show nothing. -/
theorem latest_of_push {payload : Payload} {message : String} {line : Option Nat} {id : Option FrameId}
    (hevents : s.events = r.events.push ⟨payload, message, line, id⟩) (hkind : payload.kind ≠ .set) {e : Event}
    {name : String} {value : Snapshot} {locals : Bindings} (he : s.events.back? = some e) :
    e.payload ≠ .set name value locals := by
  intro hp
  rw [hevents, Array.back?_push] at he
  obtain rfl := Option.some.inj he
  obtain rfl : payload = .set name value locals := hp
  exact absurd rfl hkind

theorem of_step (h : r.Shown) (hstep : Step r s) : s.Shown := by
  refine ⟨h.listed.of_step hstep, fun e name' value' locals he hp => ?_⟩
  cases hstep with
  | stay => exact h.latest e name' value' locals he hp
  | reset => cases he
  | call name args line => exact absurd hp (latest_of_push (events_call ..) (by simp [Payload.kind]) he)
  | ret ha value line => exact absurd hp (latest_of_push (events_returned ..) (by simp [Payload.kind]) he)
  | log text line => exact absurd hp (latest_of_push (events_push ..) (by simp [Payload.kind]) he)
  | step ha message line => exact absurd hp (latest_of_push (events_push ..) (by simp [Payload.kind]) he)
  | @set a ha name value line =>
    rw [events_assigned, Array.back?_push] at he
    obtain rfl := Option.some.inj he
    cases hp
    have hlt : a.id < r.frames.size := (Array.getElem?_eq_some_iff.mp ha.stored).1
    refine ⟨{ a with locals := a.locals.insert name' value' }, ⟨ha.active, ?_⟩, rfl, rfl⟩
    rw [frames_assigned, Array.getElem?_setIfInBounds_self_of_lt hlt]

end Shown

end Recorder

/-! ## Local variables -/

namespace CallStack

/-- The value of a variable of the innermost call; at top level no variable is one. -/
def local? (s : CallStack) (name : String) : Option Value := s.frames.head?.bind (·.lookup name)

variable {s t : CallStack} {name other : String} {v w : Value}

theorem isLocal_eq (s : CallStack) (name : String) : s.isLocal name = (s.local? name).isSome := by
  obtain ⟨globals, frames, n, hn⟩ := s
  cases frames <;> rfl

/-- An assignment changes no local variable but the one assigned to. -/
theorem local?_assign (h : s.assign? name v = some t) (hw : t.local? other = some w) :
    s.local? other = some w ∨ other = name ∧ w = v := by
  obtain ⟨globals, frames, n, hn⟩ := s
  rcases assign_cases h with rfl | rfl
  · cases frames with
    | nil => cases hw
    | cons f rest =>
      have hw : (f.vars.put name v).lookup other = some w := hw
      by_cases ho : other = name
      · subst ho
        rw [Assoc.lookup_put_self] at hw
        exact .inr ⟨rfl, (Option.some.inj hw).symm⟩
      · rw [Assoc.lookup_put_of_ne ho] at hw
        exact .inl hw
  · exact .inl hw

theorem scopes_assign (h : s.assign? name v = some t) :
    t.frames.head?.map (·.scopes) = s.frames.head?.map (·.scopes) := by
  obtain ⟨globals, frames, n, hn⟩ := s
  rcases assign_cases h with rfl | rfl
  · cases frames <;> rfl
  · rfl

end CallStack

/-! ## States -/

/-- Variables are rooted, frames separate, and the recording is sound and shown. -/
structure Machine.Unshared (m : Machine) : Prop where
  separate : Separate m.heap m.stack.owners
  rooted : m.Rooted
  sound : m.recorder.Sound
  shown : m.recorder.Shown

theorem Machine.Unshared.lt_size {m : Machine} (h : m.Unshared) {d : CellId} (hd : .list d ∈ m.stack.slots) :
    d < m.heap.cells.size := by
  obtain ⟨f, hf, hv⟩ := CallStack.mem_slots.mp hd
  exact (h.separate.grounded f hf _ hv).lt_size .here

/-- A list that no frame owns is no list of a variable. -/
theorem Unowned.not_mem_slots {h : Heap} {s : CallStack} {d : CellId} (hd : Unowned h s.owners (.list d)) :
    .list d ∉ s.slots := fun hm =>
  have ⟨f, hf, hv⟩ := CallStack.mem_slots.mp hm
  hd d .here f hf ⟨.list d, hv, .here⟩

namespace Exec

open CallStack (SameShape)

theorem Confined.stands {m n : Machine} (h : Confined m n) {d : CellId} (hd : d < m.heap.cells.size)
    (hs : n.heap.Stands d) : m.heap.Stands d := by
  obtain ⟨c, hc⟩ := hs
  exact ⟨c, h.edges c d hd hc⟩

/-- From `m` to `n` the innermost call has kept its names and scopes, its variables have got only new lists, and
what is recorded for its callers has stayed the same. -/
structure Steady (m n : Machine) : Prop where
  size : m.heap.cells.size ≤ n.heap.cells.size
  values : ∀ name d, d < m.heap.cells.size → n.stack.local? name = some (.list d) →
    m.stack.local? name = some (.list d)
  isLocal : ∀ name, n.stack.isLocal name = m.stack.isLocal name
  scopes : n.stack.frames.head?.map (·.scopes) = m.stack.frames.head?.map (·.scopes)
  active : n.recorder.active = m.recorder.active
  spares : m.recorder.Spares n.recorder

namespace Steady

variable {m n o : Machine}

theorem refl (m : Machine) : Steady m m :=
  ⟨Nat.le_refl _, fun _ _ _ => id, fun _ => rfl, rfl, rfl, .refl _⟩

theorem trans (h : Steady m n) (h' : Steady n o) : Steady m o where
  size := Nat.le_trans h.size h'.size
  values name d hd ho := h.values name d hd (h'.values name d (Nat.lt_of_lt_of_le hd h.size) ho)
  isLocal name := (h'.isLocal name).trans (h.isLocal name)
  scopes := h'.scopes.trans h.scopes
  active := h'.active.trans h.active
  spares := h.spares.trans h.active h'.spares

/-- The innermost call has the same frame. -/
theorem of_frames (hsize : m.heap.cells.size ≤ n.heap.cells.size) (hframes : n.stack.frames = m.stack.frames)
    (hactive : n.recorder.active = m.recorder.active) (hspares : m.recorder.Spares n.recorder) : Steady m n where
  size := hsize
  values name d _ hn := by
    rwa [CallStack.local?, hframes] at hn
  isLocal name := by rw [CallStack.isLocal_eq, CallStack.isLocal_eq, CallStack.local?, CallStack.local?, hframes]
  scopes := by rw [hframes]
  active := hactive
  spares := hspares

theorem of_heap {heap : Heap} (hsize : m.heap.cells.size ≤ heap.cells.size) : Steady m { m with heap } :=
  of_frames hsize rfl rfl (.refl _)

theorem of_recorder {recorder : Recorder}
    (h : recorder.active = m.recorder.active ∧ m.recorder.Spares recorder) : Steady m { m with recorder } :=
  of_frames (Nat.le_refl _) rfl h.1 h.2

theorem assign {name : String} {v : Value} {s : CallStack} (h : Steady m n)
    (hs : n.stack.assign? name v = some s) (hv : ∀ d, v = .list d → m.heap.cells.size ≤ d) :
    Steady m { n with stack := s } where
  size := h.size
  values other d hd ho := by
    rcases CallStack.local?_assign hs ho with ho | ⟨-, he⟩
    · exact h.values other d hd ho
    · exact absurd (hv d he.symm) (Nat.not_le_of_lt hd)
  isLocal other := (CallStack.isLocal_assign hs other).trans (h.isLocal other)
  scopes := (CallStack.scopes_assign hs).trans h.scopes
  active := h.active
  spares := h.spares

end Steady

/-! ## The contract -/

/-- In `n`, the value `v` is a copy made since `m`, which is neither a variable's nor an item. -/
def Detached (m n : Machine) (v : Value) : Prop := Unstored m n v ∧ ∀ d, v = .list d → ¬ n.heap.Stands d

/-- What a statement does to the recording of the innermost call and of its callers, when it returns a value or,
with `none`, without a return. -/
def Sparing (v : Option Value) (m n : Machine) : Prop :=
  n.recorder.active = (v.elim m.recorder.active fun _ => m.recorder.active.tail) ∧
    m.recorder.Spares n.recorder

theorem Sparing.trans {m n o : Machine} {v : Option Value} (h : Sparing none m n) (h' : Sparing v n o) :
    Sparing v m o := by
  refine ⟨h'.1.trans ?_, h.2.trans h.1 h'.2⟩
  rw [show n.recorder.active = m.recorder.active from h.1]

/-- When a call is over, the calls before it are active, and what is recorded for them has stayed the same. -/
theorem Sparing.leaving {n o : Machine} {f : Instrumented.Function} {vars : List (String × Value)}
    {v : Option Value} (h : Sparing v (n.entering f vars) o) (hsound : o.recorder.Sound) (hshown : o.recorder.Shown)
    (line : Nat) : (o.leaving f line v).recorder.active = n.recorder.active ∧
      (n.entering f vars).recorder.Spares (o.leaving f line v).recorder ∧
      (o.leaving f line v).recorder.Shown := by
  obtain ⟨hactive, hspares⟩ := h
  cases v with
  | some w => exact ⟨hactive, hspares, hshown⟩
  | none =>
    have hstep := hsound.step (.ret .undefined (some f.endLine))
    obtain ⟨htail, hspares'⟩ := hsound.spares_ret .undefined (some f.endLine)
    exact ⟨htail.trans (congrArg List.tail hactive), hspares.trans hactive hspares', hshown.of_step hstep⟩

theorem Detached.lt_size {m n : Machine} {d : CellId} (h : Detached m n (.list d)) : d < n.heap.cells.size :=
  h.1.1.grounded.lt_size .here

theorem Detached.fresh {m n : Machine} {d : CellId} (h : Detached m n (.list d)) :
    .list d ∉ n.stack.slots ∧ ¬ n.heap.Stands d := ⟨h.1.2.not_mem_slots, h.2 d rfl⟩

/-- The contract that no two variables share a list. -/
def unshared : Contract false where
  Inv := Machine.Unshared
  Rel m n := ownership.Rel m n ∧ Steady m n
  Runs v m n := Keeps v m n ∧ Sparing v m n
  Hand := AtHand
  Pending := Detached
  refl m := ⟨ownership.refl m, .refl m⟩
  trans h h' := ⟨ownership.trans h.1 h'.1, h.2.trans h'.2⟩
  hand_scalar hv := ownership.hand_scalar hv
  hand_of_rel h hv := ownership.hand_of_rel h.1 hv
  pending_scalar hv := ⟨ownership.pending_scalar hv, fun d hd => by subst hd; cases hv⟩
  pending_of_rel h hv := ⟨ownership.pending_of_rel h.1 hv.1, hv.2⟩
  pending_rel hv hn h := by
    refine ⟨ownership.pending_rel hv.1 hn.separate h.1, ?_⟩
    rintro d rfl hs
    exact hv.2 d rfl (h.1.2.stands hv.lt_size hs)
  hand_of_pending hv := ownership.hand_of_pending hv.1
  lookup hn h hv := ownership.lookup hn.separate h.1 hv
  item hn h hc hv := ownership.item hn.separate h.1 hc hv
  copy {m} v hm := by
    obtain ⟨hsep, hrel, hpending⟩ := ownership.copy v hm.separate
    obtain ⟨hparented, hplanted⟩ := Heap.copy_planted v hm.rooted.parented
    have hext : m.heap.Extends (m.heap.copy v).2 := (Heap.copy_spec v m.heap).1
    refine ⟨⟨hsep, hm.rooted.withHeap hparented fun d hs => ?_, hm.sound, hm.shown⟩, ⟨hrel, .of_heap hext.size⟩,
      hpending, fun d hd => (hplanted d (List.mem_singleton.mpr hd.symm)).2⟩
    by_cases hd : .list d ∈ m.stack.slots
    · exact .inl (hext.stands (hm.lt_size hd) hs)
    · exact .inr hd
  newList {m n items} hn h hitems := by
    obtain ⟨hsep, hrel, hhand⟩ := ownership.newList hn.separate h.1 fun v hv => (hitems v hv).1
    have hfresh (d : CellId) (hd : .list d ∈ items) := (hitems _ hd).fresh
    have hparented := hn.rooted.parented.alloc fun d hd => ⟨(hitems _ hd).lt_size, (hfresh d hd).2⟩
    have hsize : n.heap.cells.size ≤ (n.heap.alloc items).2.cells.size := by
      rw [Heap.size_alloc]
      exact Nat.le_succ _
    exact ⟨⟨hsep, hn.rooted.withHeap hparented fun d hs =>
      (Heap.stands_alloc hs).imp_right fun hd => (hfresh d hd).1, hn.sound, hn.shown⟩,
      ⟨hrel, h.2.trans (.of_heap hsize)⟩, hhand⟩
  store {m n c f} hn h hc hf := by
    obtain ⟨hsep, hrel⟩ := ownership.store hn.separate h.1 hc fun v hv => (hf v hv).imp_right And.left
    have hnew (d : CellId) (hd : .list d ∈ f (n.heap.items c)) : .list d ∈ n.heap.items c ∨
        d < n.heap.cells.size ∧ .list d ∉ n.stack.slots ∧ ¬ n.heap.Stands d :=
      (hf _ hd).imp_right fun hp => ⟨hp.lt_size, hp.fresh⟩
    have hparented := hn.rooted.parented.update fun d hd => (hnew d hd).imp_right fun hp => ⟨hp.1, hp.2.2⟩
    refine ⟨⟨hsep, hn.rooted.withHeap hparented fun d hs => ?_, hn.sound, hn.shown⟩,
      hrel, h.2.trans (.of_heap (Nat.le_of_eq (Heap.size_update n.heap c f).symm))⟩
    rcases Heap.stands_update hs with hs | hd
    · exact .inl hs
    · exact (hnew d hd).imp (fun hd => ⟨c, hd⟩) fun hp => hp.2.1
  assign {m n name v s} hn h hv hs := by
    obtain ⟨hsep, hrel⟩ := ownership.assign hn.separate h.1 hv.1 hs
    have hrooted := hn.rooted.withStack [v] (CallStack.slots_assign hs) (List.pairwise_singleton _ _)
      fun d hd => by
        obtain rfl := List.mem_singleton.mp hd
        exact hv.fresh
    refine ⟨⟨hsep, hrooted, hn.sound, hn.shown⟩, hrel, h.2.assign hs ?_⟩
    rintro d rfl
    exact hv.1.1.le_of_list
  set {m} name v hm :=
    ⟨⟨hm.separate, hm.rooted.elsewhere _ _ _, hm.sound.of_step (hm.sound.step (.set name v (some m.line))),
      hm.shown.of_step (hm.sound.step (.set name v (some m.line)))⟩,
      (ownership.set name v hm.separate).2, .of_recorder (hm.sound.spares_set name v _)⟩
  log {m} text hm :=
    ⟨⟨hm.separate, hm.rooted.elsewhere _ _ _, hm.sound.log text _,
      hm.shown.of_step (.log text (some m.line))⟩,
      (ownership.log text hm.separate).2, .of_recorder ⟨rfl, .of_frames rfl⟩⟩
  entered {m} b hm := ⟨⟨hm.separate, hm.rooted.elsewhere _ _ _, hm.sound, hm.shown⟩,
    (ownership.entered b hm.separate).2, .of_frames (Nat.le_refl _) rfl rfl (.refl _)⟩
  runs_of_rel h := ⟨ownership.runs_of_rel h.1, h.2.active, h.2.spares⟩
  runs_trans h h' := ⟨ownership.runs_trans h.1 h'.1, h.2.trans h'.2⟩
  setLine {m} line hm := ⟨⟨hm.separate, hm.rooted.elsewhere _ _ _, hm.sound, hm.shown⟩,
    (ownership.setLine line hm.separate).2, rfl, .refl _⟩
  step {m} text line hm :=
    ⟨⟨hm.separate, hm.rooted.elsewhere _ _ _, hm.sound.of_step (hm.sound.step (.step text (some line))),
      hm.shown.of_step (hm.sound.step (.step text (some line)))⟩,
      (ownership.step text line hm.separate).2, hm.sound.spares_step text _⟩
  declare {m n v} name hn h hv := by
    have hv := hv.resolve_left Bool.false_ne_true
    obtain ⟨hsep, hruns⟩ := ownership.declare name hn.separate h.1 (.inr hv.1)
    have hrooted := hn.rooted.withStack [v] (CallStack.slots_declare n.stack name v)
      (List.pairwise_singleton _ _) fun d hd => by
        obtain rfl := List.mem_singleton.mp hd
        exact hv.fresh
    exact ⟨⟨hsep, hrooted, hn.sound, hn.shown⟩, hruns, h.2.active, h.2.spares⟩
  pushScope {m} hm := ⟨ownership.pushScope hm.separate,
    hm.rooted.withStack [] m.stack.slots_pushScope .nil fun _ hd => (nomatch hd), hm.sound, hm.shown⟩
  popScope {m n v} hm hn hrun := by
    obtain ⟨hsep, hruns⟩ := ownership.popScope hm.separate hn.separate hrun.1
    exact ⟨⟨hsep, hn.rooted.withStack [] n.stack.slots_popScope .nil fun _ hd => (nomatch hd),
      hn.sound, hn.shown⟩, hruns, hrun.2⟩
  ret {m n v} hn h hv := by
    obtain ⟨hsep, hruns⟩ := ownership.ret hn.separate h.1 hv
    have hstep := hn.sound.step (.ret (n.heap.snapshot v) (some n.line))
    obtain ⟨hactive, hspares⟩ := hn.sound.spares_ret (n.heap.snapshot v) (some n.line)
    exact ⟨⟨hsep, hn.rooted.elsewhere _ _ _, hn.sound.of_step hstep, hn.shown.of_step hstep⟩, hruns,
      hactive.trans (congrArg List.tail h.2.active), h.2.spares.trans h.2.active hspares⟩
  enter {m n} f vars hn h hvars hdistinct := by
    have hvars' (b : String × Value) (hb : b ∈ vars) := (hvars b hb).resolve_left Bool.false_ne_true
    have hsep := ownership.enter f hn.separate h.1 (fun b hb => .inr (hvars' b hb).1) hdistinct
    have hslots : (n.entering f vars).stack.slots.Subperm (vars.map (·.2) ++ n.stack.slots) :=
      CallStack.slots_declares (n.stack.pushFrame f.name) vars
    have hrooted := hn.rooted.withStack _ hslots (hdistinct.resolve_left Bool.false_ne_true) fun d hd => by
      obtain ⟨b, hb, he⟩ := List.mem_map.mp hd
      exact Detached.fresh (he ▸ hvars' b hb)
    exact ⟨hsep, hrooted.elsewhere _ _ _, hn.sound.call f.name _ _, hn.shown.of_step (.call ..)⟩
  leave {m n o f vars v} hn h hvars ho hrun := by
    have hvars' (b : String × Value) (hb : b ∈ vars) := (hvars b hb).resolve_left Bool.false_ne_true
    obtain ⟨hsep, hrel, hhand⟩ :=
      ownership.leave hn.separate h.1 (fun b hb => .inr (hvars' b hb).1) ho.separate hrun.1
    have hrooted := ho.rooted.withStack [] o.stack.slots_popFrame .nil fun _ hd => (nomatch hd)
    obtain ⟨hactive, hspares, hshown⟩ := hrun.2.leaving ho.sound ho.shown n.line
    have hsteady : Steady n (o.leaving f n.line v) :=
      .of_frames hrun.1.1.2.size hrun.1.1.1.call.1 hactive (Recorder.Spares.of_call hspares)
    exact ⟨⟨hsep, hrooted.elsewhere _ _ _, sound_leaving ho.sound _, hshown⟩, ⟨hrel, h.2.trans hsteady⟩, hhand⟩

end Exec

end CallTrace
