import Lox.Proofs.Receivers.Running
import Lox.Proofs.Resolution.Names
import Lox.Proofs.Scoping.Sessions

/-!
# Every moment is sound

A new session has native functions for its globals, so its memory is sound; every input leaves it
sound, however it ends; and from the start of an input soundness is handed on to every moment that is
reached. What a call works on is sound too: a function is called without a receiver, or with one to
which it belongs.

## Contents
- `SoundMachine`, `soundMachine_after`: sessions between two inputs.
- `SoundWork`, `soundWork_part`: from a moment to the ones inside it.
- `soundWork_of_reached`: every moment that is reached.
-/

namespace Lox

namespace Scoping

/-- The class around a piece of program. -/
def Moment.kind (p : Moment) : ClassKind :=
  match p.work with
  | .expr kind _ _ | .exprs kind _ _ => kind
  | .stmt a _ _ | .loop a _ _ _ _ | .decl a _ _ | .decls a _ _ => a.enclosingClass
  | .call _ _ _ | .invoke _ _ _ | .function _ _ _ | .construct _ _ => .none

/-- How far away a name is declared, as seen by the work of a moment. -/
def Moment.distance? (p : Moment) (x : String) : Option Nat :=
  p.work.scopes?.bind (·.distance? x)

end Scoping

namespace Receivers

open Scoping

/-! ## Sessions -/

/-- A new session is sound: its globals are native functions. -/
theorem soundMachine_create {options : Options} {session : Session}
    (hcreate : Session.create options = .ok session) : SoundMachine session.machine := by
  obtain ⟨maxCallDepth, globals, hglobals, rfl⟩ := Session.eq_of_create hcreate
  have hscope (i : Nat) : (Machine.initial globals).memory.scope i =
      if i = 0 then globals else Table.empty := scope_newScope Memory.empty globals i
  have hsize : globalScope < (Machine.initial globals).memory.scopes.size := Nat.zero_lt_one
  have hnone (i : Nat) (x : String) (v : Value)
      (hv : ((Machine.initial globals).memory.scope i).get? x = some v) : ∃ n, v = .native n := by
    rw [hscope] at hv
    split at hv
    · exact natives_globalsOf hglobals x v hv
    · exact nomatch hv
  refine ⟨?_, .cons hsize nofun .nil, globalScope, [], rfl, hsize, ?_, ?_⟩
  · intro v hv
    cases hv with
    | bound i x hv =>
        obtain ⟨n, rfl⟩ := hnone i x v hv
        trivial
    | field i x hv => exact nomatch hv
  · intro r hr
    exact nomatch hnone _ _ _ hr
  · intro c hc
    exact nomatch hnone _ _ _ hc

section Runs

variable {setting : Setting} (hhonest : setting.host.Honest) (hbinds : setting.host.BindsOwn)

include hhonest hbinds

/-- The run of a program keeps the memory sound. -/
theorem keeps_program (echo : Bool) (fuel : Nat) {p : Program} (hp : Decl.OrdinaryAll p.body)
    {m : Machine} (hm : SoundMachine m) : Keeps (runProgram setting echo fuel p) m fun _ _ => True := by
  have hcalls := sustains hhonest hbinds fuel
  obtain ⟨body, span⟩ := p
  unfold runProgram
  split
  · rename_i e _ hbody
    change body = _ at hbody
    subst hbody
    refine .bind (hcalls.evaluate e m hp.1 hm) ?_
    intro v m' _ hleads _
    exact .print hleads.sound _ v.text
  · refine .bind (hcalls.executeAll body m hp hm) ?_
    intro flow m' _ hleads _
    cases flow with
    | normal => exact .pure hleads.sound trivial
    | «break» | «continue» | «return» => exact .raise hleads.sound _

theorem SoundMachine.runWith {s : Session} (hsetting : s.setting = setting) (fuel : Nat)
    (source : List Char) (hs : SoundMachine s.machine) :
    SoundMachine (s.runWith fuel source).2.machine := by
  rw [Session.runWith_eq]
  cases hcompile : compile source with
  | error result => exact hs
  | ok p' =>
      obtain ⟨p, hparse, _, rfl⟩ := (compile_eq_ok source p').1 hcompile
      have hordinary : Decl.OrdinaryAll p.resolve.value.body :=
        Decl.ordinaryAll_resolve .topLevel [] p.body (ordinary_of_parse hparse)
      have hrun := keeps_program hhonest hbinds s.echo fuel hordinary hs
      rw [← hsetting] at hrun
      show SoundMachine (RunResult.ofEval _).2
      rw [machine_ofEval]
      unfold Keeps at hrun
      cases hres : runProgram s.setting s.echo fuel p.resolve.value s.machine with
      | ok _ m' =>
          rw [hres] at hrun
          exact hs.after hrun.1
      | error stop m' =>
          rw [hres] at hrun
          exact hs.after hrun

/-- **A session is sound after every input.** -/
theorem soundMachine_after {s : Session} (hsetting : s.setting = setting) (hs : SoundMachine s.machine)
    (inputs : List (Nat × List Char)) : SoundMachine (s.after inputs).machine := by
  induction inputs generalizing s with
  | nil => exact hs
  | cons input rest ih =>
      refine ih ?_ (hs.runWith hhonest hbinds hsetting input.1 input.2)
      exact (Session.setting_runWith _ _ _).trans hsetting

/-! ## Pieces of program -/

section Pieces

variable {n : Nat} {m m' : Machine} {kind : ClassKind} {a : Surroundings} {scopes : Scopes}

theorem leads_evaluate {e : Expr} {v : Value} (he : e.Ordinary) (hm : SoundMachine m)
    (heq : evaluate setting n (e.resolve kind scopes).value m = .ok v m') :
    Leads m m' ∧ SoundValue m'.memory v :=
  ((sustains hhonest hbinds n).evaluate _ m (e.ordinary_resolve kind scopes he) hm).of_eq heq

theorem leads_evaluateAll {es : List Expr} {vs : List Value} (hes : Expr.OrdinaryAll es)
    (hm : SoundMachine m)
    (heq : evaluateAll setting n (Expr.resolveAll kind scopes es).value m = .ok vs m') :
    Leads m m' ∧ SoundValues m'.memory vs :=
  ((sustains hhonest hbinds n).evaluateAll _ m (Expr.ordinaryAll_resolve kind scopes es hes)
    hm).of_eq heq

theorem leads_execute {s : Stmt} {flow : Flow} (hs : s.Ordinary) (hm : SoundMachine m)
    (heq : execute setting n (s.resolve a scopes).value m = .ok flow m') : Leads m m' :=
  (((sustains hhonest hbinds n).execute _ m (s.ordinary_resolve a scopes hs) hm).of_eq heq).1

theorem leads_executeDecl {d : Decl} {flow : Flow} (hd : d.Ordinary) (hm : SoundMachine m)
    (heq : executeDecl setting n (d.resolve a scopes).value m = .ok flow m') : Leads m m' :=
  (((sustains hhonest hbinds n).executeDecl _ m (d.ordinary_resolve a scopes hd)
    hm).of_eq heq).1

end Pieces

end Runs

/-! ## Moments -/

/-- The machine of a moment is sound, and so is what a call works on. -/
def SoundWork (p : Moment) : Prop :=
  match p.work with
  | .expr _ _ _ | .exprs _ _ _ | .stmt _ _ _ | .loop _ _ _ _ _ | .decl _ _ _ | .decls _ _ _ =>
    SoundMachine p.machine
  | .call callee args _ =>
    SoundMemory p.machine.memory ∧ SoundValue p.machine.memory callee ∧
      SoundValues p.machine.memory args
  | .invoke callee args _ =>
    SoundMemory p.machine.memory ∧ SoundCallable p.machine.memory callee ∧
      SoundValues p.machine.memory args
  | .function closure args receiver =>
    SoundMemory p.machine.memory ∧ SoundCall p.machine.memory closure receiver ∧
      SoundValues p.machine.memory args
  | .construct c args =>
    SoundMemory p.machine.memory ∧ SoundClass p.machine.memory c ∧
      SoundValues p.machine.memory args

theorem SoundWork.memory {p : Moment} (h : SoundWork p) : SoundMemory p.machine.memory := by
  obtain ⟨n, work, m⟩ := p
  cases work with
  | expr | exprs | stmt | loop | decl | decls => exact SoundMachine.memory h
  | call | invoke | function | construct => exact h.1

/-- A moment at work on a piece of program. -/
def Static (p : Moment) : Prop := p.work.scopes?.isSome = true

theorem soundWork_of_static {p : Moment} (hp : Static p) :
    SoundWork p ↔ SoundMachine p.machine := by
  obtain ⟨n, work, m⟩ := p
  cases work with
  | expr | exprs | stmt | loop | decl | decls => exact Iff.rfl
  | call | invoke | function | construct => exact nomatch hp

/-- A block sees a new scope without names. -/
theorem soundMachine_entered {m : Machine} (hm : SoundMachine m) : SoundMachine (entered m) where
  memory := by
    have hentries : ∀ e ∈ ([] : List (String × Value)), SoundValue m.memory e.2 := nofun
    exact hm.memory.newScope hentries
  aligned := hm.aligned.push nofun
  plain := Plain.push _ _ fun _ _ => rfl

/-- How a piece of program sees what a piece around it sees: the same scopes, or one more. -/
inductive Inner (p q : Moment) : Prop
  | along : Leads p.machine q.machine → q.kind = p.kind →
      (∀ x, Reserved x → q.distance? x = p.distance? x) → Inner p q
  | block : q.machine = entered p.machine → q.kind = p.kind →
      (∀ x, q.distance? x = (p.distance? x).map (· + 1)) → Inner p q

/-- A piece of program with the same scopes. -/
theorem Inner.same {p q : Moment} (hleads : Leads p.machine q.machine) (hkind : q.kind = p.kind)
    (hscopes : q.work.scopes? = p.work.scopes?) : Inner p q := by
  refine .along hleads hkind fun x _ => ?_
  unfold Moment.distance?
  rw [hscopes]

/-- Marking a name leaves receivers and superclasses where they are. -/
theorem distance?_mark {scopes : Scopes} {name : String} (hname : ¬Reserved name)
    (complete : Bool) {x : String} (hx : Reserved x) :
    (scopes.mark name complete).distance? x = scopes.distance? x :=
  Scopes.distance?_mark_of_ne _ _ fun heq => hname (heq ▸ hx)

section Inside

variable {h : History} {p q : Moment} (hhonest : h.session.setting.host.Honest)
  (hbinds : h.session.setting.host.BindsOwn)

include hhonest hbinds

theorem inner_expr {n : Nat} {kind : ClassKind} {scopes : Scopes} {e : Expr} {m : Machine}
    (he : e.Ordinary) (hm : SoundMachine m)
    (hpart : Part h.session.setting ⟨n, .expr kind scopes e, m⟩ q) (hq : Static q) :
    Inner ⟨n, .expr kind scopes e, m⟩ q := by
  have hsame : Leads m m := .same hm.memory rfl rfl
  cases hpart with
  | grouping | operand | left | first | assigned | callee | object | owner =>
      exact .same hsame rfl rfl
  | right heq | second heq _ | args heq =>
      exact .same (leads_evaluate hhonest hbinds he.1 hm heq).1 rfl rfl
  | field heq => exact .same (leads_evaluate hhonest hbinds he.1 hm heq).1 rfl rfl
  | called => exact nomatch hq

theorem inner_stmt {n : Nat} {a : Surroundings} {scopes : Scopes} {s : Stmt} {m : Machine}
    (hs : s.Ordinary) (hm : SoundMachine m)
    (hpart : Part h.session.setting ⟨n, .stmt a scopes s, m⟩ q) :
    Inner ⟨n, .stmt a scopes s, m⟩ q := by
  have hsame : Leads m m := .same hm.memory rfl rfl
  cases hpart with
  | value | printed | test | loop | returned => exact .same hsame rfl rfl
  | block => exact .block rfl rfl fun _ => rfl
  | @thenBranch _ _ _ c _ otherwise _ _ _ _ heq =>
      have hc : c.Ordinary := by
        cases otherwise with
        | none => exact hs.1
        | some e => exact hs.1
      exact .same (leads_evaluate hhonest hbinds hc hm heq).1 rfl rfl
  | elseBranch heq => exact .same (leads_evaluate hhonest hbinds hs.1 hm heq).1 rfl rfl

theorem inner_loop {n : Nat} {a : Surroundings} {scopes : Scopes} {c : Expr} {b : Stmt}
    {i : Option Expr} {m : Machine} (hc : c.Ordinary) (hb : b.Ordinary)
    (hi : Expr.OrdinaryOption i) (hm : SoundMachine m)
    (hpart : Part h.session.setting ⟨n, .loop a scopes c b i, m⟩ q) :
    Inner ⟨n, .loop a scopes c b i, m⟩ q := by
  have hcondition {k : Nat} {v : Value} {m' : Machine}
      (heq : evaluate h.session.setting k (c.resolve a.enclosingClass scopes).value m = .ok v m') :
      Leads m m' := (leads_evaluate hhonest hbinds hc hm heq).1
  have hround {k : Nat} {m' m'' : Machine} {flow : Flow} (hleads : Leads m m')
      (heq : execute h.session.setting k (b.resolve { a with inLoop := true } scopes).value m' =
        .ok flow m'') : Leads m m'' :=
    hleads.trans (leads_execute hhonest hbinds hb (hm.after hleads) heq)
  cases hpart with
  | condition => exact .same (.same hm.memory rfl rfl) rfl rfl
  | round heq _ => exact .same (hcondition heq) rfl rfl
  | increment heq _ hexecute _ => exact .same (hround (hcondition heq) hexecute) rfl rfl
  | again heq _ hexecute _ => exact .same (hround (hcondition heq) hexecute) rfl rfl
  | incremented heq _ hexecute _ hstep =>
      have hleads := hround (hcondition heq) hexecute
      have hleads' := (leads_evaluate hhonest hbinds hi (hm.after hleads) hstep).1
      exact .same (hleads.trans hleads') rfl rfl

/-- **From a piece of program to one inside it.** -/
theorem inner_part (hvalid : Valid h p) (hp : SoundWork p)
    (hpart : Part h.session.setting p q) (hq : Static q) : Inner p q := by
  obtain ⟨n, work, m⟩ := p
  cases work with
  | expr => exact inner_expr hhonest hbinds hvalid.2.1 hp hpart hq
  | exprs =>
      cases hpart with
      | head => exact .same (.same hp.memory rfl rfl) rfl rfl
      | tail heq => exact .same (leads_evaluate hhonest hbinds hvalid.2.1.1 hp heq).1 rfl rfl
  | stmt => exact inner_stmt hhonest hbinds hvalid.2.2.1 hp hpart
  | loop =>
      obtain ⟨hc, hb, hi⟩ := hvalid.2.2.1
      exact inner_loop hhonest hbinds hc hb hi hp hpart
  | decl =>
      cases hpart with
      | initial =>
          exact .along (.same hp.memory rfl rfl) rfl fun x hx => distance?_mark hvalid.2.2.1.1 false hx
      | statement => exact .same (.same hp.memory rfl rfl) rfl rfl
  | decls a scopes ds =>
      cases hpart with
      | next => exact .same (.same hp.memory rfl rfl) rfl rfl
      | @rest _ _ _ d _ _ _ heq =>
          have hd := hvalid.2.2.1.1
          refine .along (leads_executeDecl hhonest hbinds hd hp heq) rfl fun x hx => ?_
          show (scopes.behind d).distance? x = scopes.distance? x
          unfold Scopes.behind
          split
          · rename_i name hname
            exact distance?_mark (Decl.not_reserved hd name hname) true hx
          · rfl
  | call | invoke | function | construct => cases hpart <;> exact nomatch hq

/-- **From a moment to the ones inside it.** -/
theorem soundWork_part (hvalid : Valid h p) (hp : SoundWork p)
    (hpart : Part h.session.setting p q) : SoundWork q := by
  by_cases hq : Static q
  · have hstatic : Static p := by
      cases hpart with
      | invoke | function | method | construct | initializer => exact nomatch hq
      | _ => rfl
    have hm := (soundWork_of_static hstatic).1 hp
    refine (soundWork_of_static hq).2 ?_
    cases inner_part hhonest hbinds hvalid hp hpart hq with
    | along hleads _ _ => exact hm.after hleads
    | block heq _ _ =>
        rw [heq]
        exact soundMachine_entered hm
  · cases hpart with
    | called heq heqs =>
        obtain ⟨_, ⟨hcallee, hargs⟩, _⟩ := hvalid
        obtain ⟨hleads, hf⟩ := leads_evaluate hhonest hbinds hcallee hp heq
        obtain ⟨hleads', hvs⟩ := leads_evaluateAll hhonest hbinds hargs (hp.after hleads) heqs
        exact ⟨hleads'.sound, hf.settles hleads'.settles, hvs⟩
    | invoke hcallable _ _ => exact ⟨hp.1, hp.2.1.callable hcallable, hp.2.2⟩
    | function | method | construct => exact hp
    | @initializer _ c _ m closure hfind =>
        obtain ⟨hm, hc, hargs⟩ := hp
        have hsettles : Settles m.memory (m.memory.newInstance c).2 :=
          Settles.of_scopes_eq rfl (Nat.le_refl _)
        exact ⟨hm.newInstance c, ⟨hc.settles hsettles, Class.exists_of_findMethod? hfind⟩,
          hargs.settles hsettles⟩
    | _ => exact absurd rfl hq

/-- **Every moment that is reached is sound**, in a session that was sound. -/
theorem soundWork_of_reached (hready : Ready h h.session.machine)
    (hsound : SoundMachine h.session.machine) {k : Nat} (hreached : Reached h k p) :
    SoundWork p := by
  induction hreached with
  | @start k fuel source p _ hparse herrors =>
      have hs := soundMachine_after hhonest hbinds rfl hsound (h.inputs.take k)
      rcases start_cases (h.session.after (h.inputs.take k)) fuel p with ⟨e, heq, _⟩ | ⟨heq, _⟩
      · rw [heq]
        exact hs
      · rw [heq]
        exact hs
  | part hp hpart ih =>
      exact soundWork_part hhonest hbinds (valid_of_reached hhonest hready hp) ih hpart
  | body _ hchain _ _ _ _ ih _ =>
      obtain ⟨hm, hcall, hargs⟩ := ih
      obtain ⟨hleads, haligned, hplain⟩ := (Keeps.bodyChain hm hcall hargs).of_eq hchain
      exact ⟨hleads.sound, haligned, hplain⟩

end Inside

end Receivers

end Lox
