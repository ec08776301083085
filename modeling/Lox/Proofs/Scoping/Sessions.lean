import Lox.Proofs.Scoping.Preservation
import Lox.Proofs.Parsing.Modes
import Lox.Proofs.Sessions.Starting

/-!
# From one input to the next

A session is ready for an input when its memory is known and the machine sees the globals. A new
session is ready, because its globals are native functions; and a session that was ready is ready
again behind an input, whatever became of it. So every input of a session starts at a valid moment,
and every moment that is reached is valid.

## Contents
- `Ready`, `ready_create`: sessions that are ready, and new ones.
- `compile_eq_ok`: what is executed for a source text.
- `start_cases`, `runs_program`: the first moment of an input, and its run.
- `ready_after`, `valid_of_reached`: every input, and every moment.
-/

namespace Lox.Scoping

variable {h : History} {k : Nat}

/-! ## New sessions -/

/-- A machine that is ready for an input. -/
structure Ready (h : History) (m : Machine) : Prop where
  known : KnownMemory h m.memory
  chain : m.chain = globalChain
  globals : globalScope < m.memory.scopes.size

/-- Tables of native functions. -/
def Natives (t : Table Value) : Prop := ∀ x v, t.get? x = some v → ∃ n, v = .native n

theorem Natives.put {t : Table Value} (ht : Natives t) (x : String) (n : Native) :
    Natives (t.put x (.native n)) := by
  intro y v hv
  rw [Table.get?_put] at hv
  split at hv
  · cases hv
    exact ⟨n, rfl⟩
  · exact ht y v hv

/-- A new session has native functions for its globals. -/
theorem natives_globalsOf {options : Options} {globals : Table Value}
    (heq : globalsOf options = .ok globals) : Natives globals := by
  have hempty : Natives .empty := nofun
  exact globalsOf_induction hempty (fun _ name n ht => ht.put name n) heq

/-- **A new session is ready.** -/
theorem ready_create {options : Options} {session : Session}
    (hcreate : Session.create options = .ok session) : Ready h session.machine := by
  obtain ⟨maxCallDepth, globals, hglobals, rfl⟩ := Session.eq_of_create hcreate
  refine ⟨⟨?_, ?_⟩, rfl, ?_⟩
  · intro i x v hv
    change ((Memory.empty.newScope globals).2.scope i).get? x = some v at hv
    rw [scope_newScope] at hv
    split at hv
    · obtain ⟨n, rfl⟩ := natives_globalsOf hglobals x v hv
      trivial
    · exact nomatch hv
  · exact nofun
  · exact Nat.zero_lt_one

/-- The session of a host without functions, with everything built in. -/
def plainSession : Session :=
  ⟨⟨Host.plain, defaultMaxCallDepth⟩, false, Machine.initial builtinBindings, .empty⟩

theorem create_plainSession : Session.create (Options.standard Host.plain) = .ok plainSession :=
  rfl

/-! ## Source texts -/

/-- What is executed for a source text: its program, with the depths of its names. -/
theorem compile_eq_ok (source : List Char) (p' : Program) :
    compile source = .ok p' ↔
      ∃ p, Program.parse source = .ok p ∧ p.resolve.errors = [] ∧ p' = p.resolve.value := by
  unfold compile
  -- an input is read by the recovering parser, and accepted when the strict one accepts it
  rcases Parsing.parse_recover source with ⟨p, hparse, hrecover⟩ | ⟨e, hparse, hhead⟩
  · rw [hparse, hrecover]
    simp only [Recovered.success, List.isEmpty_nil, if_true]
    cases herrors : p.resolve.errors with
    | nil =>
        constructor
        · intro heq
          cases heq
          exact ⟨p, rfl, herrors, rfl⟩
        · rintro ⟨q, heq, _, rfl⟩
          cases heq
          rfl
    | cons e es =>
        constructor
        · intro heq
          exact nomatch heq
        · rintro ⟨q, heq, hnil, rfl⟩
          cases heq
          exact nomatch herrors.symm.trans hnil
  · rw [hparse]
    simp only [Parsing.success_eq_false hhead]
    constructor
    · intro heq
      exact nomatch heq
    · rintro ⟨q, heq, _⟩
      exact nomatch heq

/-! ## The run of an input -/

/-- The first moment of a program: with echo, an expression whose value is printed; else everything. -/
theorem start_cases (s : Session) (fuel : Nat) (p : Program) :
    (∃ e, startOf s fuel p = ⟨fuel, .expr .none [] e, s.machine⟩ ∧
      (∃ span, p.body = [.stmt (.expression e span)]) ∧
      runProgram s.setting s.echo fuel p.resolve.value =
        evaluate s.setting fuel (e.resolve .none []).value >>= fun v =>
          Eval.print s.setting.host v.text) ∨
    (startOf s fuel p = ⟨fuel, .decls .topLevel [] p.body, s.machine⟩ ∧
      runProgram s.setting s.echo fuel p.resolve.value =
        executeProgram s.setting fuel p.resolve.value) := by
  by_cases hsingle : s.echo = true ∧ p.IsSingle
  · obtain ⟨hecho, hsingle⟩ := hsingle
    obtain ⟨e, span, hbody⟩ := Program.isSingle_iff.1 hsingle
    have hbody' : p.resolve.value.body = [.stmt (.expression (e.resolve .none []).value span)] := by
      show (Decl.resolveAll .topLevel [] p.body).value = _
      rw [hbody]
      rfl
    refine .inl ⟨e, ?_, ⟨span, hbody⟩, ?_⟩
    · unfold startOf
      rw [hecho, hbody]
    · rw [hecho, Program.run_single hbody']
  · refine .inr ⟨?_, Program.run_of_not_single ?_⟩
    · unfold startOf
      split
      · rename_i hecho hbody
        exact absurd ⟨hecho, Program.isSingle_iff.2 ⟨_, _, hbody⟩⟩ hsingle
      · rfl
    · rwa [p.isSingle_resolve]

/-- The first moment of an input is valid, if the session is ready for it. -/
theorem valid_start {s : Session} {fuel : Nat} {source : List Char} {p : Program}
    (hready : Ready h s.machine) (hparse : Program.parse source = .ok p)
    (herrors : p.resolve.errors = []) : Valid h (startOf s fuel p) := by
  have hordinary := ordinary_of_parse hparse
  have hagrees : Agrees s.machine.memory s.machine.chain [] := by
    rw [hready.chain]
    exact .globals hready.globals
  have hexact : Exact s.machine.memory s.machine.chain [] := by
    rw [hready.chain]
    trivial
  have hcontext : Context h s.machine .none [] :=
    ⟨hready.known, ⟨hagrees, hexact⟩, trivial, Scopes.Complete.nil⟩
  have hbody : (Decl.resolveAll .topLevel [] p.body).errors = [] := by
    simpa [Program.resolve] using herrors
  rcases start_cases s fuel p with ⟨e, hstart, ⟨span, hsingle⟩, _⟩ | ⟨hstart, _⟩
  · rw [hstart]
    rw [hsingle] at hordinary hbody
    refine ⟨hcontext, hordinary.1, ?_⟩
    simpa [Decl.resolveAll, Decl.resolve, Stmt.resolve, Surroundings.topLevel] using hbody
  · rw [hstart]
    exact ⟨hcontext, Scopes.Complete.nil, hordinary, hbody⟩

/-- **The run of a program** leaves behind what it should, if its first moment keeps its promise. -/
theorem runs_program {s : Session} {fuel : Nat} {p : Program}
    (hsetting : s.setting = h.session.setting) (hstart : Promise h k (startOf s fuel p)) :
    Runs h k s.machine.chain.head? (runProgram s.setting s.echo fuel p.resolve.value) s.machine
      fun _ _ => True := by
  rcases start_cases s fuel p with ⟨e, heq, _, hrun⟩ | ⟨heq, hrun⟩
  · rw [hrun, hsetting]
    rw [heq] at hstart
    refine Runs.bind (Runs.weaken hstart) ?_
    intro v m' _ hafter _
    exact Runs.weaken (Runs.print hafter.known v.text)
  · rw [hrun, hsetting]
    rw [heq] at hstart
    refine Runs.bind hstart ?_
    intro flow m' _ hafter hends
    -- at the top level there is nothing to jump out of
    cases flow with
    | normal => exact Runs.pure hafter.known trivial
    | «break» | «continue» => exact nomatch hends
    | «return» v => exact absurd rfl hends.1

theorem machine_ofEval (r : EStateM.Result Stop Machine Unit) :
    (RunResult.ofEval r).2 = match r with | .ok _ m => m | .error _ m => m := by
  unfold RunResult.ofEval
  split <;> rfl

/-! ## Every input and every moment -/

theorem Session.setting_runWith (fuel : Nat) (s : Session) (source : List Char) :
    (s.runWith fuel source).2.setting = s.setting := by
  rw [Session.runWith_eq_runRecovered, Session.setting_runRecovered]

theorem Session.setting_after (s : Session) (inputs : List (Nat × List Char)) :
    (s.after inputs).setting = s.setting := by
  unfold Session.after
  induction inputs generalizing s with
  | nil => rfl
  | cons input rest ih =>
      rw [List.foldl_cons, ih]
      exact Session.setting_runWith _ _ _

/-- The run of an input leaves the session ready for the next one. -/
theorem Ready.runWith {s : Session} {fuel : Nat} {source : List Char}
    (hready : Ready h s.machine)
    (hruns : ∀ p, Program.parse source = .ok p → p.resolve.errors = [] →
      Runs h k s.machine.chain.head? (runProgram s.setting s.echo fuel p.resolve.value) s.machine
        fun _ _ => True) :
    Ready h (s.runWith fuel source).2.machine := by
  rw [Session.runWith_eq]
  cases hcompile : compile source with
  | error result => exact hready
  | ok p' =>
      obtain ⟨p, hparse, herrors, rfl⟩ := (compile_eq_ok source p').1 hcompile
      have hrun := hruns p hparse herrors
      show Ready h (RunResult.ofEval _).2
      rw [machine_ofEval]
      -- an input that stops leaves the machine as usable as one that ends
      have hafter {m' : Machine} (hafter : After h s.machine.chain.head? s.machine m') :
          Ready h m' :=
        ⟨hafter.known, hafter.chain.trans hready.chain,
          Nat.lt_of_lt_of_le hready.globals hafter.grows.size_le⟩
      unfold Runs at hrun
      cases hres : runProgram s.setting s.echo fuel p.resolve.value s.machine with
      | ok _ m' =>
          rw [hres] at hrun
          exact hafter hrun.1
      | error stop m' =>
          rw [hres] at hrun
          exact hafter hrun.1

/-- **A session is ready for every input**, if it is ready for the first one. -/
theorem ready_after (hhonest : h.session.setting.host.Honest) (hready : Ready h h.session.machine)
    (k : Nat) : Ready h (h.session.after (h.inputs.take k)).machine := by
  induction k with
  | zero => exact hready
  | succ k ih =>
      cases hinput : h.inputs[k]? with
      | none =>
          -- there are no more inputs, so nothing happens
          have hend : h.inputs.length ≤ k := List.getElem?_eq_none_iff.1 hinput
          rw [List.take_of_length_le (Nat.le_succ_of_le hend)]
          rw [List.take_of_length_le hend] at ih
          exact ih
      | some input =>
          obtain ⟨fuel, source⟩ := input
          have htake : h.session.after (h.inputs.take (k + 1)) =
              ((h.session.after (h.inputs.take k)).runWith fuel source).2 := by
            rw [List.take_add_one, hinput]
            unfold Session.after
            rw [List.foldl_append]
            rfl
          rw [htake]
          refine Ready.runWith (k := k) ih ?_
          intro p hparse herrors
          refine runs_program (Session.setting_after _ _) ?_
          exact promise hhonest (.start hinput hparse herrors) (valid_start ih hparse herrors)

/-- A chain fits the declaration that made a closure in front of it. -/
theorem fits_of_makes {setting : Setting} {maker : Moment} {o : Origin} {chain : Chain}
    {memory : Memory} (hvalid : Valid h maker) (hmakes : Makes setting maker o chain memory) :
    Fits memory chain o := by
  cases hmakes with
  | function heq =>
      obtain ⟨hcontext, hcomplete, hordinary, herrors⟩ := hvalid
      exact fits_function hcontext.sees hcomplete hcontext.placed hordinary herrors heq
  | method hf heq =>
      obtain ⟨hcontext, hcomplete, hordinary, herrors⟩ := hvalid
      exact fits_method hcontext.known hcontext.sees hcomplete hordinary herrors heq hf

/-- **Every moment that is reached is valid.** -/
theorem valid_of_reached (hhonest : h.session.setting.host.Honest)
    (hready : Ready h h.session.machine) {p : Moment} (hreached : Reached h k p) : Valid h p := by
  induction hreached with
  | @start k fuel source p _ hparse herrors =>
      exact valid_start (ready_after hhonest hready k) hparse herrors
  | part hp hpart ih =>
      exact valid_part ih (fun hpart' hq => promise hhonest (hp.part hpart') hq) hpart
  | @body k n o chain args receiver m seen m' k' maker memory hcall hchain hmaker hmakes hreceiver
      hlater ih ihmaker =>
      obtain ⟨hknown, _, hargs, hclass⟩ := ih
      -- the chain fitted the function when it was made, and has been kept
      have hfits : Fits m.memory chain o := (fits_of_makes ihmaker hmakes).later hlater
      obtain ⟨i, rest, m'', hchain', _, hafter, hsees⟩ :=
        exists_bodyChain hknown hfits hreceiver hargs hclass
      cases hchain'.symm.trans hchain
      exact valid_body hfits hafter hsees


end Lox.Scoping
