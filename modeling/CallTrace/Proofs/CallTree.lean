import CallTrace.CallTree
import CallTrace.Proofs.Window

/-! # The tree of a window

* `CallTree.Lists`: the nodes and the roots of a tree are what a window says (`lists_ofEvents`).
* `Preordered`, `Spine`: the visits of a walk depth first, and the way down its last subtrees. A new call below
  the end of the spine comes last in the walk (`Preordered.concat_below`), and the pending calls are a spine
  (`preorder_called`): this is why the walk meets the calls in their order.
* `CallTree.Shows`: what the tree of a window is; `callTree_window`: every window of every timeline.
-/

namespace CallTrace
set_option autoImplicit false

open Timeline

/-! ## The nodes and the roots -/

/-- A call, with what some events say about it. -/
def Timeline.nodeOf (es : List Event) (a : Activation) : CallNode :=
  { id := a.id
    name := a.name
    args := a.args
    depth := a.depth
    parent := a.parent
    children := (callsBy es a.id).toArray
    returned := resultOf es a.id }

/-- A call stands among the calls of its caller. -/
theorem nodeOf_concat_call (es : List Event) {e : Event} {a : Activation} (he : e.opened? = some a)
    (b : Activation) :
    nodeOf (es ++ [e]) b =
      if a.parent = some b.id then
        { nodeOf es b with children := (nodeOf es b).children.push a.id }
      else nodeOf es b := by
  rw [nodeOf, callsBy_concat_call es he, resultOf_concat, resultOf?_of_opened he, Option.or_none]
  split <;> simp [nodeOf]

namespace CallTree

/-- The tree of some events. -/
def ofEvents (es : List Event) : CallTree := es.foldl CallTree.after .empty

theorem ofEvents_concat (es : List Event) (e : Event) : ofEvents (es ++ [e]) = (ofEvents es).after e := by
  rw [ofEvents, List.foldl_append]
  rfl

theorem callTree_eq (w : Timeline) : callTree w = ofEvents w.toList := (Array.foldl_toList _).symm

/-- What the tree of some events has for nodes and for roots. -/
structure Lists (es : List Event) (t : CallTree) : Prop where
  nodes : t.nodes.toList = (opened es).map (nodeOf es)
  roots : t.roots.toList = outermost es

variable {t : CallTree} {before es : List Event} {e : Event} {a : Activation}

theorem toList_updateNode (t : CallTree) (id : FrameId) (f : CallNode → CallNode) :
    (t.updateNode id f).nodes.toList = t.nodes.toList.map fun n => if n.id = id then f n else n := by
  simp [updateNode]

theorem Lists.node?_eq (h : Lists es t) (id : FrameId) :
    t.node? id = ((opened es).find? fun a => a.id == id).map (nodeOf es) := by
  rw [node?, ← Array.find?_toList, h.nodes, List.find?_map]
  rfl

theorem Lists.node?_of_not_mem (h : Lists es t) {id : FrameId} (hid : id ∉ called es) :
    t.node? id = none := by
  rw [h.node?_eq, List.find?_eq_none.mpr, Option.map_none]
  intro a ha heq
  exact hid (mem_called.mpr ⟨a, ha, beq_iff_eq.mp heq⟩)

theorem Lists.node?_of_mem (h : Lists es t) {id : FrameId} (hid : id ∈ called es) :
    ∃ a ∈ opened es, a.id = id ∧ t.node? id = some (nodeOf es a) := by
  obtain ⟨b, hb, hbid⟩ := mem_called.mp hid
  cases hfind : (opened es).find? fun a => a.id == id with
  | none => exact absurd (beq_iff_eq.mpr hbid) (List.find?_eq_none.mp hfind b hb)
  | some a =>
    refine ⟨a, List.mem_of_find?_eq_some hfind, ?_, by rw [h.node?_eq, hfind, Option.map_some]⟩
    exact beq_iff_eq.mp (List.find?_some (p := fun a : Activation => a.id == id) hfind)

/-- A call that has its caller among the calls of the tree. -/
theorem addCall_below {c : CallNode} (hc : a.parent.bind t.node? = some c) :
    t.addCall a = ({ t with nodes := t.nodes.push (nodeOf [] a) } : CallTree).updateNode c.id
      fun n => { n with children := n.children.push a.id } := by
  simp only [addCall, hc]
  rfl

theorem addCall_root (hc : a.parent.bind t.node? = none) :
    t.addCall a = { t with nodes := t.nodes.push (nodeOf [] a), roots := t.roots.push a.id } := by
  simp only [addCall, hc]
  rfl

/-- What is called next has no calls and no result yet. -/
theorem nodeOf_new (h : Fits (before ++ (es ++ [e]))) (he : e.opened? = some a) :
    nodeOf (es ++ [e]) a = nodeOf [] a := by
  have hresult : resultOf (es ++ [e]) a.id = none := by
    have hcalled : a.id ∈ called [e] := by simp [called, e.called?_eq, he]
    rw [resultOf_concat, resultOf?_of_opened he, Option.or_none]
    refine resultOf_eq_none fun x hx => ?_
    rw [← List.append_assoc] at h
    exact h.not_isReturnOf hcalled x (List.mem_append_right _ hx)
  rw [nodeOf, callsBy_new h he, hresult]
  rfl

theorem Lists.after_call (hfits : Fits (before ++ (es ++ [e]))) (h : Lists es t)
    (he : e.opened? = some a) : Lists (es ++ [e]) (t.addCall a) := by
  have hopened : opened (es ++ [e]) = opened es ++ [a] := by rw [opened_concat, he]; rfl
  have hself : a.parent ≠ some a.id := by
    refine hfits.parent_ne_of_window he ?_
    rw [hopened]
    exact List.mem_concat_self
  have hnew := nodeOf_new hfits he
  by_cases hroot : OutermostIn es a
  · have hnone : a.parent.bind t.node? = none := by
      cases hp : a.parent with
      | none => rfl
      | some p => exact h.node?_of_not_mem (hroot p hp)
    have hkept : ∀ b ∈ opened es, nodeOf (es ++ [e]) b = nodeOf es b := by
      intro b hb
      have hne : a.parent ≠ some b.id := fun hp => hroot b.id hp (mem_called_of_mem_opened hb)
      rw [nodeOf_concat_call es he, if_neg hne]
    rw [addCall_root hnone]
    constructor
    · rw [hopened, List.map_append, List.map_congr_left hkept, ← h.nodes, List.map_singleton, hnew]
      exact Array.toList_push
    · rw [outermost_concat_call hfits he, if_pos hroot, ← h.roots]
      exact Array.toList_push
  · obtain ⟨p, hp, hmem⟩ := not_outermostIn.mp hroot
    obtain ⟨b, hb, rfl, hnode⟩ := h.node?_of_mem hmem
    have hsome : a.parent.bind t.node? = some (nodeOf es b) := by rw [hp]; exact hnode
    rw [addCall_below hsome]
    constructor
    · rw [toList_updateNode, Array.toList_push, List.map_append, h.nodes, List.map_map, hopened,
        List.map_append, List.map_singleton, List.map_singleton, hnew]
      refine congrArg₂ _ (List.map_congr_left fun c hc => ?_) ?_
      · rw [nodeOf_concat_call es he, hp]
        exact if_congr ⟨fun heq => congrArg some heq.symm, fun heq => (Option.some.inj heq).symm⟩ rfl rfl
      · exact congrArg (fun n => [n]) (if_neg fun heq : a.id = b.id => hself (heq ▸ hp))
    · rw [outermost_concat_call hfits he, if_neg hroot, List.append_nil, ← h.roots]
      rfl

/-- An event that is no call. -/
theorem Lists.after_other (h : Lists es t) (he : e.opened? = none) {t' : CallTree}
    (hnodes : t'.nodes.toList = t.nodes.toList.map fun n =>
      { n with returned := n.returned.or (e.resultOf? n.id) })
    (hroots : t'.roots = t.roots) : Lists (es ++ [e]) t' := by
  have hopened : opened (es ++ [e]) = opened es := by simp [opened_concat, he]
  constructor
  · rw [hnodes, h.nodes, hopened, List.map_map]
    refine List.map_congr_left fun a _ => ?_
    rw [nodeOf, callsBy_concat_of_none es he, resultOf_concat]
    rfl
  · rw [hroots, h.roots, outermost_concat_of_none he]

theorem Lists.after (hfits : Fits (before ++ (es ++ [e]))) (h : Lists es t) :
    Lists (es ++ [e]) (t.after e) := by
  have hlast : e.FitsAfter (before ++ es) := hfits.last_window
  obtain ⟨payload, message, line, frameId⟩ := e
  cases payload with
  | call a depth => exact h.after_call hfits rfl
  | ret a value depth =>
    refine h.after_other rfl ?_ rfl
    show (t.updateNode a.id _).nodes.toList = _
    rw [toList_updateNode]
    refine List.map_congr_left fun n hn => ?_
    by_cases hid : n.id = a.id
    · -- The activation is pending, so it has not returned before.
      have hnone : n.returned = none := by
        rw [h.nodes] at hn
        obtain ⟨b, -, rfl⟩ := List.mem_map.mp hn
        refine resultOf_eq_none fun x hx => ?_
        rw [show b.id = a.id from hid]
        exact not_isReturnOf_of_mem_pending (List.mem_of_getLast? hlast.2.1.latest)
          (List.mem_append_right _ hx)
      simp [hid, hnone, Event.resultOf?, Event.isReturnOf_ret, Event.returned?]
    · have hne : a.id ≠ n.id := fun heq => hid heq.symm
      simp [hid, hne, Event.resultOf?, Event.isReturnOf_ret]
  | _ => exact h.after_other rfl (by simp [CallTree.after, Event.resultOf?, Event.isReturnOf]) rfl

theorem lists_ofEvents (h : Fits (before ++ es)) : Lists es (ofEvents es) := by
  induction es using List.reverseRecOn with
  | nil => exact ⟨rfl, rfl⟩
  | append_singleton es e ih =>
    rw [ofEvents_concat]
    exact Lists.after h (ih h.of_concat)

end CallTree

/-! ## Walks depth first -/

section Walk

variable {calls calls' : FrameId → List FrameId}

/-- `visits` are the calls of some subtrees as a walk depth first meets them: `ids` are their roots, and
`calls` says what is below a call. -/
inductive Preordered (calls : FrameId → List FrameId) : List FrameId → List FrameId → Prop where
  | nil : Preordered calls [] []
  | cons {id : FrameId} {ids below after : List FrameId} :
      Preordered calls (calls id) below → Preordered calls ids after →
      Preordered calls (id :: ids) (id :: (below ++ after))

/-- `path` leads down the last subtrees: it begins with the last root, and each call in it is the last one
below the one before. -/
inductive Spine (calls : FrameId → List FrameId) : List FrameId → List FrameId → Prop where
  | nil {ids : List FrameId} : Spine calls ids []
  | cons {ids path : List FrameId} {id : FrameId} :
      Spine calls (calls id) path → Spine calls (ids ++ [id]) (id :: path)

namespace Preordered

variable {ids visits : List FrameId}

theorem congr (h : Preordered calls ids visits) (hsame : ∀ id ∈ visits, calls' id = calls id) :
    Preordered calls' ids visits := by
  induction h with
  | nil => exact .nil
  | @cons id ids below after _ _ ihbelow ihafter =>
    have hid : calls' id = calls id := hsame id List.mem_cons_self
    refine .cons (hid ▸ ihbelow fun i hi => ?_) (ihafter fun i hi => ?_)
    · exact hsame i (List.mem_cons_of_mem _ (List.mem_append_left _ hi))
    · exact hsame i (List.mem_cons_of_mem _ (List.mem_append_right _ hi))

/-- Each visit is to a root or to one of the calls below another visit, and to each of these once. -/
theorem perm (h : Preordered calls ids visits) : (ids ++ visits.flatMap calls).Perm visits := by
  induction h with
  | nil => exact .refl _
  | @cons id ids below after _ _ ihbelow ihafter =>
    rw [List.cons_append, List.flatMap_cons, List.flatMap_append]
    refine List.Perm.cons id ?_
    calc ids ++ (calls id ++ (below.flatMap calls ++ after.flatMap calls))
        = ids ++ ((calls id ++ below.flatMap calls) ++ after.flatMap calls) := by
          rw [List.append_assoc]
      _ |>.Perm (ids ++ (below ++ after.flatMap calls)) :=
          (ihbelow.append_right _).append_left _
      _ |>.Perm (below ++ (ids ++ after.flatMap calls)) := List.perm_append_comm_assoc ..
      _ |>.Perm (below ++ after) := ihafter.append_left _

/-- A new root comes last. -/
theorem concat (h : Preordered calls ids visits) {id : FrameId} (hid : calls id = []) :
    Preordered calls (ids ++ [id]) (visits ++ [id]) := by
  induction h with
  | nil =>
    have hbelow : Preordered calls (calls id) [] := by
      rw [hid]
      exact .nil
    exact .cons hbelow .nil
  | cons hbelow _ _ ihafter =>
    rw [List.cons_append, List.cons_append, List.append_assoc]
    exact .cons hbelow ihafter

end Preordered

namespace Spine

variable {ids visits path : List FrameId} {c id : FrameId}

/-- A spine in some subtrees leads down the first one, if this is the last, or down the others. -/
theorem cons_cases {i : FrameId} (h : Spine calls (i :: ids) (path ++ [c])) :
    (ids = [] ∧ path = [] ∧ c = i) ∨
      (ids = [] ∧ ∃ path', path = i :: path' ∧ Spine calls (calls i) (path' ++ [c])) ∨
      Spine calls ids (path ++ [c]) := by
  generalize hids : i :: ids = all, hall : path ++ [c] = whole at h
  cases h with
  | nil => simp at hall
  | @cons front below last hbelow =>
    cases front with
    | nil =>
      obtain ⟨rfl, rfl⟩ := List.cons.inj hids
      cases path with
      | nil =>
        obtain ⟨rfl, -⟩ := List.cons.inj hall
        exact .inl ⟨rfl, rfl, rfl⟩
      | cons j path =>
        obtain ⟨rfl, rfl⟩ := List.cons.inj hall
        exact .inr (.inl ⟨rfl, path, rfl, hbelow⟩)
    | cons j front =>
      obtain ⟨-, rfl⟩ := List.cons.inj hids
      exact .inr (.inr (.cons hbelow))

/-- The end of a spine is visited. -/
theorem mem_visits (hvisits : Preordered calls ids visits) (h : Spine calls ids (path ++ [c])) :
    c ∈ visits := by
  induction hvisits generalizing path with
  | nil =>
    generalize hids : [] = ids, hall : path ++ [c] = whole at h
    cases h <;> simp at hids hall
  | cons _ _ ihbelow ihafter =>
    rcases h.cons_cases with ⟨-, -, rfl⟩ | ⟨-, path', -, hbelow⟩ | hafter
    · exact List.mem_cons_self
    · exact List.mem_cons_of_mem _ (List.mem_append_left _ (ihbelow hbelow))
    · exact List.mem_cons_of_mem _ (List.mem_append_right _ (ihafter hafter))

theorem dropLast (h : Spine calls ids (path ++ [c])) : Spine calls ids path := by
  induction path generalizing ids with
  | nil => exact .nil
  | cons i path ih =>
    cases h with
    | cons hbelow => exact .cons (ih hbelow)

/-- A new call below the end of a spine is the new end. -/
theorem concat (h : Spine calls ids (path ++ [c])) (hpath : c ∉ path)
    (hc : calls' c = calls c ++ [id]) (hsame : ∀ i, i ≠ c → calls' i = calls i) :
    Spine calls' ids (path ++ [c] ++ [id]) := by
  induction path generalizing ids with
  | nil =>
    cases h with
    | cons =>
      have hbelow : Spine calls' (calls' c) [id] := hc ▸ .cons .nil
      exact .cons hbelow
  | cons i path ih =>
    cases h with
    | cons hbelow =>
      have hi : calls' i = calls i := hsame i fun heq => hpath (heq ▸ List.mem_cons_self)
      exact .cons (hi ▸ ih hbelow fun hmem => hpath (List.mem_cons_of_mem _ hmem))

end Spine

/-- A new call below the end of the spine comes last. -/
theorem Preordered.concat_below {ids visits path : List FrameId} {c id : FrameId}
    (h : Preordered calls ids visits) (hnodup : visits.Nodup) (hpath : Spine calls ids (path ++ [c]))
    (hc : calls' c = calls c ++ [id]) (hsame : ∀ i, i ≠ c → calls' i = calls i)
    (hid : calls' id = []) : Preordered calls' ids (visits ++ [id]) := by
  induction h generalizing path with
  | nil => simpa using hpath.mem_visits .nil
  | @cons i ids below after hbelow hafter ihbelow ihafter =>
    obtain ⟨hi, hnodup⟩ := List.nodup_cons.mp hnodup
    obtain ⟨hnbelow, hnafter, hdisjoint⟩ := List.nodup_append.mp hnodup
    rcases hpath.cons_cases with ⟨rfl, -, rfl⟩ | ⟨rfl, path', -, hspine⟩ | hspine
    · -- The caller is the last root: the new call comes after all that is below it.
      cases hafter
      have hkept : Preordered calls' (calls c) below := hbelow.congr fun i hmem =>
        hsame i fun heq => hi (List.mem_append_left _ (heq ▸ hmem))
      have hnew : Preordered calls' (calls' c) (below ++ [id]) := hc ▸ hkept.concat hid
      simpa using Preordered.cons hnew .nil
    · cases hafter
      have hne : i ≠ c := fun heq =>
        hi (List.mem_append_left _ (heq ▸ hspine.mem_visits hbelow))
      have hnew : Preordered calls' (calls' i) (below ++ [id]) := hsame i hne ▸ ihbelow hnbelow hspine
      simpa using Preordered.cons hnew .nil
    · have hmem : c ∈ after := hspine.mem_visits hafter
      have hne : i ≠ c := fun heq => hi (List.mem_append_right _ (heq ▸ hmem))
      have hkept : Preordered calls' (calls' i) below := hsame i hne ▸ hbelow.congr fun j hj =>
        hsame j fun heq => hdisjoint j hj c hmem heq
      simpa using Preordered.cons hkept (ihafter hnafter hspine)

end Walk

/-! ## The walk of a window -/

section Window

variable {before es : List Event} {e : Event}

/-- The walk from the outermost calls of a window meets its calls in their order, and the pending calls
lead down to where the next one goes. -/
theorem preorder_called (h : Fits (before ++ es)) :
    Preordered (callsBy es) (outermost es) (called es) ∧
      Spine (callsBy es) (outermost es) (pending es) := by
  induction es using List.reverseRecOn with
  | nil => exact ⟨.nil, .nil⟩
  | append_singleton es e ih =>
    have hes : Fits (before ++ es) := h.of_concat
    obtain ⟨hwalk, hspine⟩ := ih hes
    cases he : e.opened? with
    | none =>
      have hcalled : called (es ++ [e]) = called es := by simp [called_concat, e.called?_eq, he]
      rw [callsBy_concat_of_none es he, outermost_concat_of_none he, hcalled]
      refine ⟨hwalk, ?_⟩
      rcases pending_concat_cases h he with hp | ⟨id, hp⟩
      · rwa [hp]
      · exact (hp ▸ hspine).dropLast
    | some a =>
      have hcall : a.CalledAfter (before ++ es) := Fits.calledAfter (by rwa [List.append_assoc]) he
      have hid : e.called? = some a.id := by rw [e.called?_eq, he, Option.map_some]
      have hpending : pending (es ++ [e]) = pending es ++ [a.id] := by
        refine pending_concat_call hid (fun hret => ?_) fun x hx => ?_
        · rw [e.called?_of_kind (hret ▸ nofun)] at hid
          cases hid
        · rw [← List.append_assoc] at h
          exact h.not_isReturnOf (by simp [called, hid]) x (List.mem_append_right _ hx)
      have hnew : callsBy (es ++ [e]) a.id = [] := callsBy_new h he
      rw [called_concat, hid, Option.toList_some, hpending, outermost_concat_call h he]
      rcases latest_cases hes with ⟨hnil, hlatest⟩ | ⟨path, c, hpath, hfresh, hlatest⟩
      · have houter : OutermostIn es a := fun p hp => hlatest p (hcall.parent_eq.symm.trans hp)
        have hkept : ∀ i ∈ called es, callsBy (es ++ [e]) i = callsBy es i := fun i hi =>
          callsBy_concat_of_ne es he fun hp => houter i hp hi
        rw [if_pos houter, hnil]
        exact ⟨(hwalk.congr hkept).concat hnew, .cons .nil⟩
      · have hparent : a.parent = some c := hcall.parent_eq.trans hlatest
        have hmem : c ∈ called es := mem_called_of_mem_pending (hpath ▸ List.mem_concat_self)
        have hc : callsBy (es ++ [e]) c = callsBy es c ++ [a.id] := by
          rw [callsBy_concat_call es he, if_pos hparent]
        have hsame : ∀ i, i ≠ c → callsBy (es ++ [e]) i = callsBy es i := fun i hi =>
          callsBy_concat_of_ne es he fun hp => hi (Option.some.inj (hp.symm.trans hparent))
        rw [if_neg fun ho => ho c hparent hmem, List.append_nil, hpath]
        rw [hpath] at hspine
        exact ⟨hwalk.concat_below hes.nodup_window hspine hc hsame hnew, hspine.concat hfresh hc hsame⟩

end Window

/-! ## The tree of a window -/

namespace CallTree

variable {t : CallTree} {before es : List Event} {n c : CallNode}

theorem walk_cons (t : CallTree) (fuel : Nat) (id : FrameId) (ids : List FrameId) :
    t.walk (fuel + 1) (id :: ids) =
      ((t.node? id).elim [] fun n => n :: t.walk fuel n.children.toList) ++ t.walk (fuel + 1) ids := by
  cases h : t.node? id <;> simp [walk, h]

/-- With fuel for every visit, the walk visits the nodes of a walk depth first. -/
theorem Lists.walk_eq (h : Lists es t) {fuel : Nat} {ids visits : List FrameId}
    (hwalk : Preordered (callsBy es) ids visits) (hes : visits ⊆ called es)
    (hfuel : visits.length ≤ fuel) : t.walk fuel ids = visits.filterMap t.node? := by
  induction hwalk generalizing fuel with
  | nil => cases fuel <;> rfl
  | @cons id ids below after _ _ ihbelow ihafter =>
    obtain ⟨hid, hrest⟩ := List.cons_subset.mp hes
    obtain ⟨hbelow, hafter⟩ := List.append_subset.mp hrest
    rw [List.length_cons, List.length_append] at hfuel
    obtain ⟨fuel, rfl⟩ : ∃ k, fuel = k + 1 := ⟨fuel - 1, by omega⟩
    obtain ⟨a, -, rfl, hnode⟩ := h.node?_of_mem hid
    have hlen : below.length ≤ fuel := by omega
    rw [walk_cons, hnode, Option.elim_some, ihafter hafter (by omega),
      List.filterMap_cons_some hnode, List.filterMap_append, ← ihbelow hbelow hlen]
    rfl

theorem Lists.preorder_eq (hfits : Fits (before ++ es)) (h : Lists es t) :
    t.preorder = t.nodes.toList := by
  have hnode : ∀ a ∈ opened es, t.node? a.id = some (nodeOf es a) := by
    intro a ha
    obtain ⟨b, hb, hid, hnode⟩ := h.node?_of_mem (mem_called_of_mem_opened ha)
    rw [hnode, opened_injective hfits.nodup_window hb ha hid]
  have hsize : (called es).length = t.size := by
    rw [size, ← Array.length_toList, h.nodes, List.length_map, called_eq_map, List.length_map]
  rw [preorder, h.roots, h.walk_eq (preorder_called hfits).1 (List.Subset.refl _) (by omega), h.nodes,
    called_eq_map, List.filterMap_map, ← List.filterMap_eq_map]
  exact List.filterMap_congr fun a ha => hnode a ha

/-- The tree of a window. Its nodes are the calls of the window in their order, each as it was called, with
the calls it makes there. Each is a root or below the node of its caller, once; a walk depth first meets them
all in their order; and they have returned what they return in the window. -/
structure Shows (es : List Event) (t : CallTree) : Prop where
  nodes : t.nodes.toList = (opened es).map (nodeOf es)
  nodup : (t.nodes.toList.map (·.id)).Nodup
  roots : t.roots.toList = outermost es
  caller : ∀ n ∈ t.nodes, n.id ∉ t.roots → ∃ c ∈ t.nodes,
    n.parent = some c.id ∧ n.depth = c.depth + 1 ∧ ∀ d ∈ t.nodes, n.id ∈ d.children ↔ d = c
  once : (t.roots.toList ++ t.nodes.toList.flatMap fun n => n.children.toList).Perm
    (t.nodes.toList.map (·.id))
  preorder : t.preorder = t.nodes.toList
  text : t.text = String.join (t.nodes.toList.map lineText)
  returned : ∀ n ∈ t.nodes, (∀ e ∈ es, e.isReturnOf n.id → n.returned = e.returned?) ∧
    ((∀ e ∈ es, e.isReturnOf n.id = false) → n.returned = none)

theorem Lists.mem_nodes (h : Lists es t) : n ∈ t.nodes ↔ ∃ a ∈ opened es, nodeOf es a = n := by
  rw [← Array.mem_toList_iff, h.nodes, List.mem_map]

theorem shows_ofEvents (hfits : Fits (before ++ es)) : Shows es (ofEvents es) := by
  have h : Lists es (ofEvents es) := lists_ofEvents hfits
  generalize ofEvents es = t at h
  have hids : t.nodes.toList.map (·.id) = called es := by
    rw [h.nodes, List.map_map, called_eq_map]
    rfl
  have hpreorder : t.preorder = t.nodes.toList := h.preorder_eq hfits
  refine ⟨h.nodes, hids ▸ hfits.nodup_window, h.roots, fun n hn hroot => ?_, ?_, hpreorder,
    by rw [text, hpreorder], fun n hn => ?_⟩
  · obtain ⟨a, ha, rfl⟩ := h.mem_nodes.mp hn
    have houter : ¬ OutermostIn es a := by
      intro ho
      rw [← Array.mem_toList_iff, h.roots] at hroot
      exact hroot (List.mem_map.mpr ⟨a, List.mem_filter.mpr ⟨ha, decide_eq_true ho⟩, rfl⟩)
    obtain ⟨p, hp, hmem⟩ := not_outermostIn.mp houter
    obtain ⟨b, hb, rfl⟩ := mem_called.mp hmem
    refine ⟨nodeOf es b, h.mem_nodes.mpr ⟨b, hb, rfl⟩, hp, depth_of_parent hfits ha hb hp,
      fun d hd => ?_⟩
    obtain ⟨c, hc, rfl⟩ := h.mem_nodes.mp hd
    show a.id ∈ (callsBy es c.id).toArray ↔ _
    rw [List.mem_toArray, mem_callsBy]
    constructor
    · rintro ⟨a', ha', hp', hid⟩
      obtain rfl : a' = a := opened_injective hfits.nodup_window ha' ha hid
      obtain rfl : c = b := opened_injective hfits.nodup_window hc hb (Option.some.inj (hp'.symm.trans hp))
      rfl
    · intro heq
      have hid : c.id = b.id := congrArg CallNode.id heq
      exact ⟨a, ha, hid ▸ hp, rfl⟩
  · have hperm := (preorder_called hfits).1.perm
    have hchildren : (t.nodes.toList.flatMap fun n => n.children.toList) =
        (called es).flatMap (callsBy es) := by
      rw [h.nodes, called_eq_map, List.flatMap_map, List.flatMap_map]
      rfl
    rw [h.roots, hchildren, hids]
    exact hperm
  · obtain ⟨a, ha, rfl⟩ := h.mem_nodes.mp hn
    exact ⟨fun e he hret => resultOf_of_mem hfits he hret, fun hall => resultOf_eq_none hall⟩

end CallTree

namespace Recorder

/-- Replay gives every call of a window the value that it returns in the window, at the last event of the
window. -/
theorem returned_reconstruct (ops : List Op) {i : Nat} (hi : i < (record ops).events.size)
    {before es : List Event} (hes : (record ops).events.toList.take (i + 1) = before ++ es) {id : FrameId}
    (hid : id ∈ called es) :
    ∃ v, (reconstruct (record ops).events i).frame? id = some v ∧ v.returned = resultOf es id := by
  obtain ⟨start, op, -, -, -, -, hevents, hview, -⟩ := reconstruct_record ops hi
  have hlist : (record (start ++ [op])).events.toList = before ++ es := by rw [hevents, ← hes]; simp
  have hformed := formed_record (start ++ [op])
  have hfits : Fits (before ++ es) := hlist ▸ hformed.fits
  have hlt : id < (record (start ++ [op])).frames.size := by
    rw [← List.mem_range, ← hformed.called_eq, hlist, called, List.filterMap_append]
    exact List.mem_append_right _ hid
  have hframe := Array.getElem?_eq_getElem hlt
  refine ⟨_, by rw [hview, (sound_record _).frame?_view hframe], ?_⟩
  show Activation.returned _ = _
  rw [returned_eq_resultOf _ hframe, hlist, resultOf_append, resultOf_eq_none (hfits.not_isReturnOf hid),
    Option.none_or]

/-- The tree of any window of the timeline of any operations shows the window, and replay at the last
event of the window gives its calls the values that the tree says they have returned. -/
theorem callTree_window (ops : List Op) (start stop : Nat) :
    CallTree.Shows ((record ops).events.extract start stop).toList
        (callTree ((record ops).events.extract start stop)) ∧
      ∀ n ∈ (callTree ((record ops).events.extract start stop)).nodes,
        ∃ v, (reconstruct (record ops).events (min stop (record ops).events.size - 1)).frame? n.id =
          some v ∧ v.returned = n.returned := by
  obtain ⟨before, hsplit⟩ := exists_before (record ops).events start stop
  generalize (record ops).events.extract start stop = w at hsplit
  have hall : Fits (record ops).events.toList := (formed_record ops).fits
  rw [← List.take_append_drop (min stop (record ops).events.size) (record ops).events.toList] at hall
  have hfits : Fits (before ++ w.toList) := hsplit ▸ hall.of_append
  rw [CallTree.callTree_eq w]
  refine ⟨CallTree.shows_ofEvents hfits, fun n hn => ?_⟩
  obtain ⟨a, ha, rfl⟩ := (CallTree.lists_ofEvents hfits).mem_nodes.mp hn
  have hpos : min stop (record ops).events.size ≠ 0 := by
    intro hzero
    rw [hzero, List.take_zero] at hsplit
    rw [(List.append_eq_nil_iff.mp hsplit.symm).2] at ha
    cases ha
  rw [← Nat.sub_add_cancel (Nat.pos_of_ne_zero hpos)] at hsplit
  exact returned_reconstruct ops (by omega) hsplit (mem_called_of_mem_opened ha)

/-- A window that begins inside of `f`, after its call: the two calls that `f` makes are roots. -/
example :
    let t := callTree ((record [.call "f" [] none, .call "g" [] none, .call "k" [] none,
      .ret .undefined none, .ret .undefined none, .call "h" [] none]).events.extract 1 6)
    t.roots.toList = [1, 3] ∧ t.preorder.map (·.id) = [1, 2, 3] := by decide +kernel

end Recorder

end CallTrace
