import CallTrace.Proofs.Recording
import Mathlib.Data.List.Basic
import Mathlib.Data.List.Induction

/-! # Locals gather what has been set

With every variable that is set, the recording shows all locals of the activation.

* `Timeline.setsBy`, `Timeline.lastLocals`: what an activation has set in some events, and the locals that it has
  shown last.
* `Bindings.Gathers`: each name that has been set stands once, in the order in which the names were set first, with
  the value that was set last. The bindings of a list do this (`Bindings.gathers_ofList`).
* `Recorder.Gathered`: every activation has the bindings of what it has set. Every operation keeps it.
* `Recorder.locals_gather`: the locals that an event shows are those of its own activation, and nothing else has an
  influence on them.
-/

namespace CallTrace
set_option autoImplicit false

/-! ## Bindings -/

/-- The bindings list each name that has been set once, in the order in which the names were set first, and with the
value that was set last. -/
structure Bindings.Gathers (b : Bindings) (sets : Assoc Snapshot) : Prop where
  nodup : b.names.Nodup
  mem_names : ∀ name, name ∈ b.names ↔ name ∈ sets.names
  ordered : b.names.Pairwise fun m n => sets.names.idxOf m < sets.names.idxOf n
  latest : ∀ name, b.get? name = List.lookup name sets.reverse

namespace Bindings

theorem ofList_concat (sets : Assoc Snapshot) (name : String) (value : Snapshot) :
    ofList (sets ++ [(name, value)]) = (ofList sets).insert name value := by
  rw [ofList, List.foldl_append]
  rfl

theorem Gathers.insert {b : Bindings} {sets : Assoc Snapshot} (h : b.Gathers sets) (name : String)
    (value : Snapshot) : (b.insert name value).Gathers (sets ++ [(name, value)]) := by
  have hnames : Assoc.names (sets ++ [(name, value)]) = sets.names ++ [name] := List.map_append
  have hold {n : String} (hn : n ∈ b.names) :
      (Assoc.names (sets ++ [(name, value)])).idxOf n = sets.names.idxOf n := by
    rw [hnames]
    exact List.idxOf_append_of_mem ((h.mem_names n).mp hn)
  have hordered : b.names.Pairwise fun m n => (Assoc.names (sets ++ [(name, value)])).idxOf m <
      (Assoc.names (sets ++ [(name, value)])).idxOf n :=
    h.ordered.imp_of_mem fun hm hn hlt => by rwa [hold hm, hold hn]
  have hlatest (other : String) :
      (b.insert name value).get? other = List.lookup other (sets ++ [(name, value)]).reverse := by
    rw [List.reverse_append, List.reverse_singleton, List.singleton_append]
    by_cases ho : other = name
    · subst ho
      rw [get?_insert_self, List.lookup_cons_self]
    · rw [get?_insert_of_ne ho, Assoc.lookup_cons_of_ne ho, h.latest]
  by_cases hmem : name ∈ b.names
  · have hsame : (b.insert name value).names = b.names := Assoc.names_put_of_mem hmem value
    refine ⟨hsame ▸ h.nodup, fun n => ?_, hsame ▸ hordered, hlatest⟩
    have hset : name ∈ sets.names := (h.mem_names name).mp hmem
    rw [hsame, hnames, h.mem_names, List.mem_append, List.mem_singleton]
    exact ⟨.inl, fun hn => hn.elim id fun he => he ▸ hset⟩
  · have hlonger : (b.insert name value).names = b.names ++ [name] := Assoc.names_put_of_not_mem hmem value
    have hnew : name ∉ sets.names := fun hn => hmem ((h.mem_names name).mpr hn)
    refine ⟨Assoc.nodup_names_put h.nodup name value, fun n => ?_, ?_, hlatest⟩
    · rw [hlonger, hnames, List.mem_append, List.mem_append, h.mem_names]
    · rw [hlonger]
      refine List.pairwise_append.mpr ⟨hordered, List.pairwise_singleton _ _, fun m hm n hn => ?_⟩
      -- a name that is set for the first time comes behind all others
      obtain rfl := List.mem_singleton.mp hn
      have hlast : (sets.names ++ [n]).idxOf n = sets.names.length := by
        rw [List.idxOf_append_of_notMem hnew, List.idxOf_cons_self, Nat.add_zero]
      rw [hold hm, hnames, hlast]
      exact List.idxOf_lt_length_iff.mpr ((h.mem_names m).mp hm)

theorem gathers_ofList (sets : Assoc Snapshot) : (ofList sets).Gathers sets := by
  induction sets using List.reverseRecOn with
  | nil => exact ⟨List.nodup_nil, fun _ => .rfl, List.Pairwise.nil, fun _ => rfl⟩
  | append_singleton sets entry ih =>
    obtain ⟨name, value⟩ := entry
    rw [ofList_concat]
    exact ih.insert name value

end Bindings

/-! ## What an activation has set -/

/-- The name, the value and the locals, if the event is that a variable of the activation is set. -/
def Event.setBy? (id : FrameId) (e : Event) : Option (String × Snapshot × Bindings) :=
  match e.payload with
  | .set name value locals => if e.frameId = some id then some (name, value, locals) else none
  | _ => none

theorem Event.setBy?_of_kind {e : Event} (h : e.kind ≠ .set) (id : FrameId) : e.setBy? id = none := by
  obtain ⟨payload, message, line, frameId⟩ := e
  cases payload with
  | set name value locals => exact absurd rfl h
  | _ => rfl

theorem Event.setBy?_of_ne {e : Event} {id : FrameId} (h : e.frameId ≠ some id) : e.setBy? id = none := by
  obtain ⟨payload, message, line, frameId⟩ := e
  cases payload with
  | set name value locals => exact if_neg h
  | _ => rfl

namespace Timeline

/-- What the activation has set in some events: the names with their values, in order. -/
def setsBy (id : FrameId) (es : List Event) : Assoc Snapshot :=
  (es.filterMap (Event.setBy? id)).map fun s => (s.1, s.2.1)

/-- The locals that the activation has shown last; before it has set something it has none. -/
def lastLocals (id : FrameId) (es : List Event) : Bindings :=
  match (es.filterMap (Event.setBy? id)).getLast? with
  | some s => s.2.2
  | none => .empty

theorem setBys_concat_of_none {id : FrameId} {es : List Event} {e : Event} (h : e.setBy? id = none) :
    (es ++ [e]).filterMap (Event.setBy? id) = es.filterMap (Event.setBy? id) := by
  rw [List.filterMap_append]
  simp [h]

theorem setBys_concat_of_some {id : FrameId} {es : List Event} {e : Event} {s : String × Snapshot × Bindings}
    (h : e.setBy? id = some s) :
    (es ++ [e]).filterMap (Event.setBy? id) = es.filterMap (Event.setBy? id) ++ [s] := by
  rw [List.filterMap_append]
  simp [h]

theorem setsBy_concat_of_none {id : FrameId} {es : List Event} {e : Event} (h : e.setBy? id = none) :
    setsBy id (es ++ [e]) = setsBy id es := by
  rw [setsBy, setBys_concat_of_none h, setsBy]

theorem lastLocals_concat_of_none {id : FrameId} {es : List Event} {e : Event} (h : e.setBy? id = none) :
    lastLocals id (es ++ [e]) = lastLocals id es := by
  rw [lastLocals, setBys_concat_of_none h, lastLocals]

theorem setsBy_concat_of_some {id : FrameId} {es : List Event} {e : Event} {name : String} {value : Snapshot}
    {locals : Bindings} (h : e.setBy? id = some (name, value, locals)) :
    setsBy id (es ++ [e]) = setsBy id es ++ [(name, value)] := by
  rw [setsBy, setBys_concat_of_some h, List.map_append]
  rfl

theorem lastLocals_concat_of_some {id : FrameId} {es : List Event} {e : Event} {name : String} {value : Snapshot}
    {locals : Bindings} (h : e.setBy? id = some (name, value, locals)) : lastLocals id (es ++ [e]) = locals := by
  rw [lastLocals, setBys_concat_of_some h, List.getLast?_concat]

end Timeline

open Timeline

/-- What an event shows of the locals of its activation, given the events before it. -/
def Event.ShowsAfter (before : List Event) (e : Event) : Prop :=
  match e.payload with
  | .set name value locals =>
    ∃ id, e.frameId = some id ∧ locals = .ofList (setsBy id before ++ [(name, value)])
  | .ret frame _ _ => e.frameId = some frame.id ∧ frame.locals = lastLocals frame.id before
  | _ => True

namespace Recorder

/-! ## What every operation keeps -/

/-- Every event shows what has been set, and every activation has the bindings of it. -/
structure Gathered (r : Recorder) : Prop where
  shows : ∀ before e after, r.events.toList = before ++ e :: after → e.ShowsAfter before
  locals_eq : ∀ (i : Nat) (a : Activation), r.frames[i]? = some a → a.locals = .ofList (setsBy i r.events.toList)
  last_eq : ∀ (i : Nat) (a : Activation), r.frames[i]? = some a → a.locals = lastLocals i r.events.toList

namespace Gathered

variable {r r' : Recorder} {e : Event}

theorem empty : Gathered .empty where
  shows := by simp [Recorder.empty]
  locals_eq := by simp [Recorder.empty]
  last_eq := by simp [Recorder.empty]

/-- An event that sets nothing, behind which every activation has the locals that it had, or is new and has none. -/
theorem within (h : r.Gathered) (hevents : r'.events = r.events.push e) (hkind : e.kind ≠ .set)
    (hshows : e.ShowsAfter r.events.toList)
    (hframes : ∀ (i : Nat) (a : Activation), r'.frames[i]? = some a →
      (∃ b, r.frames[i]? = some b ∧ a.locals = b.locals) ∨
        a.locals = .empty ∧ r.events.toList.filterMap (Event.setBy? i) = []) : r'.Gathered := by
  have hlist : r'.events.toList = r.events.toList ++ [e] := by rw [hevents, Array.toList_push]
  refine ⟨hlist ▸ Event.forall_splits_concat h.shows hshows, fun i a ha => ?_, fun i a ha => ?_⟩
  · rw [hlist, setsBy_concat_of_none (Event.setBy?_of_kind hkind i)]
    rcases hframes i a ha with ⟨b, hb, hsame⟩ | ⟨hempty, hnone⟩
    · rw [hsame, h.locals_eq i b hb]
    · rw [hempty, setsBy, hnone]
      rfl
  · rw [hlist, lastLocals_concat_of_none (Event.setBy?_of_kind hkind i)]
    rcases hframes i a ha with ⟨b, hb, hsame⟩ | ⟨hempty, hnone⟩
    · rw [hsame, h.last_eq i b hb]
    · rw [hempty, lastLocals, hnone]
      rfl

/-- An activation that does not exist yet has set nothing. -/
theorem setBys_new (hs : r.Sound) : r.events.toList.filterMap (Event.setBy? r.frames.size) = [] := by
  refine List.filterMap_eq_nil_iff.mpr fun e he => Event.setBy?_of_ne fun hid => ?_
  exact Nat.lt_irrefl _ (hs.event_lt e (Array.mem_toList_iff.mp he) _ (.inl hid))

theorem call (hs : r.Sound) (h : r.Gathered) (name : String) (args : List (String × Snapshot)) (line : Option Nat) :
    (r.call name args line).Gathered := by
  refine h.within (events_call r name args line) (by simp [Event.kind, Payload.kind]) trivial fun i a ha => ?_
  rw [frames_call, Array.getElem?_push] at ha
  split at ha
  · next hi =>
    cases ha
    exact .inr ⟨rfl, hi ▸ setBys_new hs⟩
  · exact .inl ⟨a, ha, rfl⟩

theorem ret (hs : r.Sound) (h : r.Gathered) {a : Activation} (ha : r.Latest a) (value : Snapshot)
    (line : Option Nat) : (r.returned a value line).Gathered := by
  refine h.within (events_returned r a value line) (by simp [Event.kind, Payload.kind])
    ⟨rfl, h.last_eq _ a ha.stored⟩ fun i b hb => .inl ?_
  rw [frames_returned] at hb
  rcases hs.getElem?_setLatest ha hb with ⟨rfl, rfl⟩ | ⟨-, hb⟩
  · exact ⟨a, ha.stored, rfl⟩
  · exact ⟨b, hb, rfl⟩

theorem set (hs : r.Sound) (h : r.Gathered) {a : Activation} (ha : r.Latest a) (name : String) (value : Snapshot)
    (line : Option Nat) : (r.assigned a name value line).Gathered := by
  have hlist := congrArg Array.toList (events_assigned r a name value line)
  rw [Array.toList_push] at hlist
  generalize he : (⟨.set name value (a.locals.insert name value), "Updated " ++ name, line, some a.id⟩ : Event) = e
    at hlist
  have hset : e.setBy? a.id = some (name, value, a.locals.insert name value) := by
    rw [← he]
    exact if_pos rfl
  have hother {i : Nat} (hi : i ≠ a.id) : e.setBy? i = none := by
    refine Event.setBy?_of_ne fun hid => hi ?_
    rw [← he] at hid
    exact (Option.some.inj hid).symm
  have hinsert : a.locals.insert name value = .ofList (setsBy a.id r.events.toList ++ [(name, value)]) := by
    rw [Bindings.ofList_concat, ← h.locals_eq _ a ha.stored]
  have hshows : e.ShowsAfter r.events.toList := by
    rw [← he]
    exact ⟨a.id, rfl, hinsert⟩
  refine ⟨hlist ▸ Event.forall_splits_concat h.shows hshows, fun i b hb => ?_, fun i b hb => ?_⟩
  all_goals
    rw [frames_assigned] at hb
    rw [hlist]
  · rcases hs.getElem?_setLatest ha hb with ⟨rfl, rfl⟩ | ⟨hne, hb⟩
    · rw [setsBy_concat_of_some hset, hinsert]
    · rw [setsBy_concat_of_none (hother hne), h.locals_eq i b hb]
  · rcases hs.getElem?_setLatest ha hb with ⟨rfl, rfl⟩ | ⟨hne, hb⟩
    · rw [lastLocals_concat_of_some hset]
    · rw [lastLocals_concat_of_none (hother hne), h.last_eq i b hb]

theorem of_step (hs : r.Sound) (h : r.Gathered) (hstep : Step r r') : r'.Gathered := by
  have same (i : Nat) (a : Activation) (ha : r.frames[i]? = some a) :
      (∃ b, r.frames[i]? = some b ∧ a.locals = b.locals) ∨
        a.locals = .empty ∧ r.events.toList.filterMap (Event.setBy? i) = [] := .inl ⟨a, ha, rfl⟩
  cases hstep with
  | stay => exact h
  | reset => exact Gathered.empty
  | call name args line => exact call hs h name args line
  | ret ha value line => exact ret hs h ha value line
  | set ha name value line => exact set hs h ha name value line
  | log text line => exact h.within rfl (by simp [Event.kind, Payload.kind]) trivial same
  | step ha message line => exact h.within rfl (by simp [Event.kind, Payload.kind]) trivial same

end Gathered

theorem gathered_record (ops : List Op) : (record ops).Gathered :=
  (List.foldlRecOn (motive := fun r : Recorder => r.Sound ∧ r.Gathered) ops apply
    ⟨Sound.empty, Gathered.empty⟩ fun _ h op _ =>
      ⟨h.1.of_step (h.1.step op), Gathered.of_step h.1 h.2 (h.1.step op)⟩).2

/-! ## Every timeline -/

/-- When a variable is set, the locals are the bindings of all that its activation has set so far, and of nothing
else: each name once, in the order in which the names were set first, with the value that was set last. A return
carries the locals that its activation has shown last. -/
theorem locals_gather (ops : List Op) {before after : List Event} {e : Event}
    (hsplit : (record ops).events.toList = before ++ e :: after) :
    (∀ name value locals, e.payload = .set name value locals → ∃ id, e.frameId = some id ∧
      locals = .ofList (setsBy id (before ++ [e])) ∧ locals.Gathers (setsBy id (before ++ [e])) ∧
      locals.get? name = some value) ∧
    ∀ frame value depth, e.payload = .ret frame value depth →
      e.frameId = some frame.id ∧ frame.locals = lastLocals frame.id before := by
  have hshows : e.ShowsAfter before := (gathered_record ops).shows before e after hsplit
  refine ⟨fun name value locals hp => ?_, fun frame value depth hp => ?_⟩
  · rw [Event.ShowsAfter, hp] at hshows
    obtain ⟨id, hid, hlocals⟩ := hshows
    have hset : e.setBy? id = some (name, value, locals) := by
      rw [Event.setBy?, hp]
      exact if_pos hid
    have hsets : setsBy id (before ++ [e]) = setsBy id before ++ [(name, value)] := setsBy_concat_of_some hset
    refine ⟨id, hid, hsets ▸ hlocals, hsets ▸ hlocals ▸ Bindings.gathers_ofList _, ?_⟩
    rw [hlocals, Bindings.ofList_concat, Bindings.get?_insert_self]
  · rw [Event.ShowsAfter, hp] at hshows
    exact hshows

/-- Two activations set variables of the same name; the outer one goes on when the inner one has returned. -/
def interleavedSets : List Op :=
  [.call "f" [] none, .set "x" (.int 1) none, .call "g" [] none, .set "x" (.int 2) none, .ret (.int 2) none,
    .set "y" (.int 3) none, .set "x" (.int 4) none]

/-- The last event shows what the outer activation has set, with `x` in its first place. -/
theorem locals_gather_interleavedSets : ∃ before e,
    (record interleavedSets).events.toList = before ++ [e] ∧
      e.payload = .set "x" (.int 4) ⟨[("x", .int 4), ("y", .int 3)]⟩ ∧
      setsBy 0 (before ++ [e]) = [("x", .int 1), ("y", .int 3), ("x", .int 4)] ∧
      Bindings.Gathers ⟨[("x", .int 4), ("y", .int 3)]⟩ (setsBy 0 (before ++ [e])) := by
  obtain ⟨before, e, hsplit, hp, hid, hsets⟩ : ∃ before e,
      (record interleavedSets).events.toList = before ++ [e] ∧
        e.payload = .set "x" (.int 4) ⟨[("x", .int 4), ("y", .int 3)]⟩ ∧ e.frameId = some 0 ∧
        setsBy 0 (before ++ [e]) = [("x", .int 1), ("y", .int 3), ("x", .int 4)] :=
    ⟨(record interleavedSets).events.toList.take 6, _, rfl, rfl, rfl, rfl⟩
  obtain ⟨id, hid', -, hgathers, -⟩ := (locals_gather interleavedSets hsplit).1 _ _ _ hp
  obtain rfl := Option.some.inj (hid.symm.trans hid')
  exact ⟨before, e, hsplit, hp, hsets, hgathers⟩

end Recorder

end CallTrace
