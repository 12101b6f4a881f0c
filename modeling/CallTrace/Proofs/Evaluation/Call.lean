import CallTrace.Proofs.Evaluation.Reached
import CallTrace.Proofs.Heap.Copy

/-! # The course of a call

* `Machine.noting`, `Machine.entering`, `Machine.leaving`: the state when a call begins, when its body
  starts, and when it is over.
* `Exec.callWith_ends`: a call passes through these states, with the body in between.
* `DistinctLists vs`: no two of some values are one list. So are the values that parameters get, unless they are
  references (`Exec.bindArgs_distinct`).
* `Exec.reached_statement`: a statement of the entry function is reached when those before it come to their ends.
* `Exec.reached_call`: a call in it is reached when the arguments have values.
-/

namespace CallTrace
set_option autoImplicit false

@[simp] theorem Heap.snapshot_undefined (h : Heap) : h.snapshot .undefined = .undefined := by
  unfold snapshot snapshotWith
  rfl

/-- No two of some values are one list. -/
def DistinctLists (vs : List Value) : Prop := vs.Pairwise fun v w => ∀ c, v = .list c → w ≠ .list c

/-- The state in which a call of a function has been noted. -/
def Machine.noting (m : Machine) (env : Env) (name : String) : Machine :=
  { m with entered := m.entered || (m.stack.isEmpty && name == env.config.entryPoint) }

/-- The state in which the body of a call starts, with its variables. -/
def Machine.entering (m : Machine) (f : Instrumented.Function) (vars : List (String × Value)) :
    Machine :=
  { m with
    recorder := m.recorder.call f.name (vars.map fun (name, v) => (name, m.heap.snapshot v))
      (some f.line)
    stack := vars.foldl (fun s (name, v) => s.declare name v) (m.stack.pushFrame f.name)
    line := f.line }

/-- The state in which the body of the entry function starts when nothing has run before. -/
def Machine.starting (env : Env) (f : Instrumented.Function) : Machine :=
  (Machine.noting { Machine.initial with line := f.line } env f.name).entering f []

/-- The state after a call made at a line, from the state in which its body has ended: a return that no
statement has recorded is recorded. -/
def Machine.leaving (m : Machine) (f : Instrumented.Function) (line : Nat)
    (returned : Option Value) : Machine :=
  { m with
    recorder := match returned with
      | some _ => m.recorder
      | none => m.recorder.ret .undefined (some f.endLine)
    stack := m.stack.popFrame
    line }

namespace Exec

variable {stop : Machine → Prop} {env : Env} {m n : Machine}

theorem checkEvents_ends {env : Env} :
    Ends stop (fun _ o => o = n) (fun _ => checkEvents env) n := by
  refine .const fun _ o ho => ?_
  unfold checkEvents at ho
  split at ho
  · cases ho
  · cases ho
    rfl

theorem checkEvents_ok (h : checkEvents env m = .ok () n) :
    n = m ∧ n.recorder.events.size ≤ env.config.maxEvents := by
  unfold checkEvents at h
  split at h
  · cases h
  · cases h
    exact ⟨rfl, by omega⟩

theorem checkCall_ok {f : Instrumented.Function} {args : List Value} (h : checkCall env f args m = .ok () n) :
    n = m ∧ m.stack.depth < env.config.maxCallDepth := by
  have hdepth {o : Machine} (hd : (get >>= fun s : Machine => if env.config.maxCallDepth ≤ s.stack.depth then
      fail (.callDepth env.config.maxCallDepth) else pure () : Exec Unit) m = .ok () o) :
      o = m ∧ m.stack.depth < env.config.maxCallDepth := by
    rw [get_bind] at hd
    split at hd
    · cases hd
    · cases hd
      exact ⟨rfl, by omega⟩
  unfold checkCall at h
  split at h
  · obtain ⟨_, _, hfail, -⟩ := ok_of_bind h
    cases hfail
  · exact hdepth h

theorem checkCall_ends {f : Instrumented.Function} {args : List Value} :
    Ends stop (fun _ o => o = n ∧ args.length = f.params.length) (fun _ => checkCall env f args) n := by
  have hdepth (hlength : args.length = f.params.length) :
      Ends stop (fun _ o => o = n ∧ args.length = f.params.length) (fun _ => get >>= fun s : Machine =>
        if env.config.maxCallDepth ≤ s.stack.depth then
          Exec.fail (.callDepth env.config.maxCallDepth)
        else Pure.pure ()) n := by
    refine .get_bind ?_
    split
    · exact .fail
    · exact .pure ⟨rfl, hlength⟩
  unfold checkCall
  split
  · exact Ends.bind .fail fun _ _ (h : False) => h.elim
  · next h => exact hdepth (Decidable.not_not.mp h)

theorem enter_ends (f : Instrumented.Function) (vars : List (String × Value)) :
    Ends stop (fun _ o => o = n.entering f vars) (fun _ => enter env f vars) n := by
  refine .of_eq (d := fun _ => checkEvents env >>= fun _ => modifyStack (·.pushFrame f.name) >>=
    fun _ => modifyStack (fun s => vars.foldl (fun s (name, v) => s.declare name v) s) >>=
    fun _ => setLine f.line) (checkEvents_ends.bind fun _ o ho => ?_) fun _ => rfl
  subst ho
  exact .ok (fun _ => rfl) rfl

/-- A call passes its arguments, runs the body, and gives what the body returns. -/
theorem callWith_ends {P : Halt → Meaning} {name : String} {f : Instrumented.Function}
    {args : List Value} {passed : List (String × Value) → Machine → Prop}
    {ran : List (String × Value) → Machine → Flow → Machine → Prop}
    (hf : env.program.function? name = some f)
    (hargs : args.length = f.params.length →
      Ends stop passed (fun _ => bindArgs f.params args) (m.noting env name))
    (hbody : ∀ vars n, passed vars n →
      Ends stop (ran vars n) (fun x => sequence (P x).run f.body) (n.entering f vars)) :
    Ends stop (fun v p => ∃ vars n flow o, passed vars n ∧ ran vars n flow o ∧
      v = flow.returned?.getD .undefined ∧ p = o.leaving f n.line flow.returned?)
      (fun x => callWith (P x) env name args) m := by
  simp only [callWith, hf]
  refine checkCall_ends.bind fun _ o ⟨ho, hlength⟩ => ?_
  subst ho
  refine .of_eq (n := o.noting env name) (d := fun x => bindArgs f.params args >>= fun vars =>
    get >>= fun s : Machine => enter env f vars >>= fun _ => body (P x) f >>= fun result =>
    modifyStack CallStack.popFrame >>= fun _ => setLine s.line >>= fun _ => Pure.pure result)
    ((hargs hlength).bind fun vars n hvars => ?_) fun _ => rfl
  refine .get_bind ((enter_ends f vars).bind fun _ o ho => ?_)
  subst ho
  have hfinish (flow : Flow) (o : Machine) : Ends stop
      (fun v p => v = flow.returned?.getD .undefined ∧ o.leaving f n.line flow.returned? =
        { p with stack := p.stack.popFrame, line := n.line })
      (fun _ => finish f flow) o := by
    cases hr : flow.returned? with
    | some v => exact .ok (fun _ => by rw [finish, hr]; rfl) ⟨rfl, rfl⟩
    | none =>
      refine .ok (fun _ => by rw [finish, hr]; rfl) ⟨rfl, ?_⟩
      simp only [Machine.leaving, Heap.snapshot_undefined]
  have hran : Ends stop (fun v p => ∃ flow o, ran vars n flow o ∧
      v = flow.returned?.getD .undefined ∧ o.leaving f n.line flow.returned? =
        { p with stack := p.stack.popFrame, line := n.line })
      (fun x => body (P x) f) (n.entering f vars) :=
    (hbody vars n hvars).bind fun flow o ho => (hfinish flow o).mono fun _ _ h => ⟨flow, o, ho, h⟩
  refine hran.bind fun v p ⟨flow, o, ho, hv, hp⟩ => ?_
  exact .ok (fun _ => rfl) ⟨vars, n, flow, o, hvars, ho, hv, hp.symm⟩

theorem callWith_ok {p : Meaning} {name : String} {f : Instrumented.Function} {args : List Value}
    {v : Value} (hf : env.program.function? name = some f)
    (hc : callWith p env name args m = .ok v n) :
    ∃ vars o flow b, args.length = f.params.length ∧
      bindArgs f.params args (m.noting env name) = .ok vars o ∧
      sequence p.run f.body (o.entering f vars) = .ok flow b ∧
      v = flow.returned?.getD .undefined ∧ n = b.leaving f o.line flow.returned? := by
  have h : Ends (fun _ => False) (fun v n => ∃ vars o flow b,
      (args.length = f.params.length ∧ bindArgs f.params args (m.noting env name) = .ok vars o) ∧
        sequence p.run f.body (o.entering f vars) = .ok flow b ∧
        v = flow.returned?.getD .undefined ∧ n = b.leaving f o.line flow.returned?)
      (fun _ => callWith p env name args) m :=
    callWith_ends (P := fun _ => p) hf (fun hlength => .const fun _ _ h => ⟨hlength, h⟩)
      fun _ _ _ => .const fun _ _ h => h
  obtain ⟨vars, o, flow, b, ⟨hlength, hargs⟩, hbody, hv, hn⟩ := h.of_ok hc
  exact ⟨vars, o, flow, b, hlength, hargs, hbody, hv, hn⟩

/-- Passing an argument: the parameter gets it, if it is a reference, and a copy of it otherwise. -/
theorem bindArgs_cons {q : Instrumented.Param} {params : List Instrumented.Param} {a : Value} {args : List Value}
    {vars : List (String × Value)} (h : bindArgs (q :: params) (a :: args) m = .ok vars n) :
    ∃ v vs o, vars = (q.name, v) :: vs ∧ bindArgs params args o = .ok vs n ∧
      (q.byRef = true ∧ v = a ∧ o = m ∨
        q.byRef = false ∧ v = (m.heap.copy a).1 ∧ o = { m with heap := (m.heap.copy a).2 }) := by
  unfold bindArgs at h
  rw [List.zip_cons_cons, List.mapM_cons] at h
  obtain ⟨b, o, hb, h⟩ := ok_of_bind h
  obtain ⟨vs, r, hvs, h⟩ := ok_of_bind h
  cases h
  cases hr : q.byRef with
  | true =>
    simp only [hr] at hb
    cases hb
    exact ⟨a, vs, _, rfl, hvs, .inl ⟨rfl, rfl, rfl⟩⟩
  | false =>
    simp only [hr] at hb
    cases hb
    exact ⟨_, vs, _, rfl, hvs, .inr ⟨rfl, rfl, rfl⟩⟩

/-- Passing arguments gives values to the parameters, and nothing but copies are made. -/
theorem bindArgs_ok {params : List Instrumented.Param} {args : List Value}
    {vars : List (String × Value)} (h : bindArgs params args m = .ok vars n) :
    (∃ heap, m.heap.Extends heap ∧ n = { m with heap }) ∧
      vars.map (·.1) = (params.zip args).map (·.1.name) := by
  have hnone : (∃ heap, n.heap.Extends heap ∧ n = { n with heap }) := ⟨n.heap, .refl n.heap, rfl⟩
  induction params generalizing args m vars with
  | nil =>
    cases h
    exact ⟨hnone, rfl⟩
  | cons q params ih =>
    cases args with
    | nil =>
      cases h
      exact ⟨hnone, rfl⟩
    | cons a args =>
      obtain ⟨v, vs, o, rfl, hvs, hpassed⟩ := bindArgs_cons h
      obtain ⟨⟨heap, hextends, rfl⟩, hnames⟩ := ih hvs
      refine ⟨⟨heap, ?_, ?_⟩, congrArg (q.name :: ·) hnames⟩
      · rcases hpassed with ⟨-, -, rfl⟩ | ⟨-, -, rfl⟩
        · exact hextends
        · exact (Heap.copy_spec a m.heap).1.trans hextends
      · rcases hpassed with ⟨-, -, rfl⟩ | ⟨-, -, rfl⟩ <;> rfl

/-- Every parameter that is no reference gets a copy of its own. -/
theorem bindArgs_distinct {params : List Instrumented.Param} {args : List Value}
    {vars : List (String × Value)} (hparams : ∀ p ∈ params, p.byRef = false)
    (h : bindArgs params args m = .ok vars n) : DistinctLists (vars.map (·.2)) := by
  -- The copies for later parameters are made of later cells.
  suffices DistinctLists (vars.map (·.2)) ∧ m.heap.cells.size ≤ n.heap.cells.size ∧
      ∀ b ∈ vars, ∀ c, b.2 = .list c → m.heap.cells.size ≤ c ∧ c < n.heap.cells.size from this.1
  have hnone {o : Machine} : DistinctLists [] ∧ o.heap.cells.size ≤ o.heap.cells.size ∧
      ∀ b ∈ ([] : List (String × Value)), ∀ c, b.2 = .list c → o.heap.cells.size ≤ c ∧ c < o.heap.cells.size :=
    ⟨.nil, Nat.le_refl _, fun _ hb => nomatch hb⟩
  induction params generalizing args m vars with
  | nil =>
    cases h
    exact hnone
  | cons q params ih =>
    cases args with
    | nil =>
      cases h
      exact hnone
    | cons a args =>
      obtain ⟨v, vs, o, rfl, hvs, hpassed⟩ := bindArgs_cons h
      obtain ⟨hdistinct, hsize, hcells⟩ := ih (fun p hp => hparams p (List.mem_cons_of_mem q hp)) hvs
      rcases hpassed with ⟨hr, -⟩ | ⟨-, rfl, rfl⟩
      · exact absurd (hr.symm.trans (hparams q List.mem_cons_self)) (by decide)
      obtain ⟨hextends, hfresh⟩ := Heap.copy_spec a m.heap
      have hhead (c : CellId) (hc : (m.heap.copy a).1 = .list c) :
          m.heap.cells.size ≤ c ∧ c < (m.heap.copy a).2.cells.size := by
        rw [hc] at hfresh
        exact ⟨hfresh.le_of_list, hfresh.grounded.lt_size .here⟩
      refine ⟨List.pairwise_cons.mpr ⟨fun w hw c hc he => ?_, hdistinct⟩,
        Nat.le_trans hextends.size hsize, fun b hb c hc => ?_⟩
      · obtain ⟨b, hb, rfl⟩ := List.mem_map.mp hw
        exact absurd (hhead c hc).2 (Nat.not_lt_of_le (hcells b hb c he).1)
      · rcases List.mem_cons.mp hb with rfl | hb
        · exact ⟨(hhead c hc).1, Nat.lt_of_lt_of_le (hhead c hc).2 hsize⟩
        · exact ⟨Nat.le_trans hextends.size (hcells b hb c hc).1, (hcells b hb c hc).2⟩

/-! ## Statements of the entry function -/

theorem sequence_congr {run run' : Instrumented.Stmt → Exec Flow} {body : List Instrumented.Stmt}
    (h : ∀ s ∈ body, run s = run' s) : sequence run body = sequence run' body := by
  induction body with
  | nil => rfl
  | cons s rest ih =>
    rw [sequence, sequence, h s List.mem_cons_self, ih fun t ht => h t (List.mem_cons_of_mem s ht)]

theorem sequence_append_of_ok {run : Instrumented.Stmt → Exec Flow} {body : List Instrumented.Stmt}
    (rest : List Instrumented.Stmt) (h : sequence run body m = .ok .normal n) :
    sequence run (body ++ rest) m = sequence run rest n := by
  induction body generalizing m with
  | nil =>
    cases h
    rfl
  | cons s body ih =>
    obtain ⟨flow, o, hs, hbody⟩ := ok_of_bind h
    cases flow with
    | normal => exact (bind_of_ok hs).trans (ih hbody)
    | breakLoop | continueLoop | ret v => cases hbody

/-- The first call of a function without parameters runs its body. -/
theorem callWith_starting {p : Meaning} {f : Instrumented.Function} (hf : env.program.function? f.name = some f)
    (hparams : f.params = []) (hdepth : 0 < env.config.maxCallDepth) (hevents : 0 < env.config.maxEvents) :
    callWith p env f.name [] { Machine.initial with line := f.line } =
      (body p f >>= fun result => modifyStack CallStack.popFrame >>= fun _ => setLine f.line >>= fun _ =>
        Pure.pure result) (Machine.starting env f) := by
  have hcheck : checkCall env f [] { Machine.initial with line := f.line } =
      .ok () { Machine.initial with line := f.line } := by
    simp only [checkCall, hparams, List.length_nil, ne_eq, not_true_eq_false, if_false]
    rw [get_bind]
    exact congrFun (if_neg (Nat.not_le_of_lt hdepth)) _
  have henter : enter env f [] (Machine.noting { Machine.initial with line := f.line } env f.name) =
      .ok () (Machine.starting env f) := by
    have hbudget {o : Machine} (ho : o.recorder.events.size = 1) : checkEvents env o = .ok () o :=
      if_neg (by omega)
    exact bind_of_ok (hbudget rfl)
  have hbind : bindArgs f.params [] = (Pure.pure [] : Exec (List (String × Value))) := by
    rw [hparams]
    rfl
  simp only [callWith, hf, hbind]
  exact (bind_of_ok hcheck).trans (bind_of_ok henter)

/-- A statement of the entry function is reached when the statements before it come to their ends. -/
theorem reached_statement {f : Instrumented.Function} {s : Instrumented.Stmt} {fuel : Nat}
    (before : List Instrumented.Stmt) {after : List Instrumented.Stmt} (hdriver : env.program.driver = [])
    (hf : env.program.function? env.config.entryPoint = some f) (hparams : f.params = [])
    (hdepth : 0 < env.config.maxCallDepth) (hevents : 0 < env.config.maxEvents)
    (hbody : f.body = before ++ s :: after) (hs : s ∉ before)
    (h : sequence (meaning env fuel).run before (Machine.starting env f) = .ok .normal m) :
    Reached env fuel (.run s) m := by
  have hname : f.name = env.config.entryPoint := by simpa using List.find?_some hf
  refine .part (reached_entry hdriver hf hparams (fuel + 1)) fun x => bind_of_error ?_
  generalize hp : (meaning env fuel).stopAt (.run s) m x = p
  -- What comes before the statement runs as it would without the stop.
  have hbefore : sequence p.run before (Machine.starting env f) = .ok .normal m := by
    refine (congrFun (sequence_congr fun t ht => funext fun o => ?_) _).trans h
    subst hp
    refine if_neg fun hstop => hs ?_
    obtain rfl := Task.run.inj hstop.1
    exact ht
  have hstop : p.run s m = .error x m := by
    subst hp
    exact if_pos ⟨rfl, rfl⟩
  refine (callWith_starting (hname ▸ hf) hparams hdepth hevents).trans (bind_of_error (bind_of_error ?_))
  rw [hbody, sequence_append_of_ok _ hbefore]
  exact bind_of_error hstop

/-- A call in a statement that is reached is reached when the statement begins and the arguments have values. -/
theorem reached_call {o : Machine} {k line : Nat} {step : Bool} {name : String}
    {es : List Instrumented.Expr} {args : List Value}
    (h : Reached env (k + 2) (.run (.act line step (.eval (.call name es)))) m)
    (hbegin : begin env line step m = .ok () n) (hargs : es.mapM (meaning env k).eval n = .ok args o) :
    Reached env k (.call name args) o := by
  have heval : Reached env (k + 1) (.eval (.call name es)) n := .part h fun x => by
    have hstop : ((meaning env (k + 1)).stopAt (.eval (.call name es)) n x).eval (.call name es) n = .error x n :=
      if_pos ⟨rfl, rfl⟩
    exact bind_of_error ((bind_of_ok hbegin).trans (bind_of_error (bind_of_error hstop)))
  refine .part heval fun x => ?_
  have hstop : ((meaning env k).stopAt (.call name args) o x).call name args o = .error x o := if_pos ⟨rfl, rfl⟩
  have hsame : ((meaning env k).stopAt (.call name args) o x).eval = (meaning env k).eval :=
    funext fun e => funext fun p => if_neg fun h => nomatch h.1
  exact bind_of_error ((bind_of_ok (hsame ▸ hargs)).trans hstop)

end Exec

end CallTrace
