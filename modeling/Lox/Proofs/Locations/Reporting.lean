import Lox.Syntax.Outline
import Lox.Proofs.Layout.Running
import Lox.Proofs.Locations.Exact

/-!
# Only exact places are reported

Parsing, resolving and running copy places and never compute one. So they commute with every function
on places: at moved places they do the same, and what they report is moved. One such function leaves
each exact place of a text where it is and takes every other place to the start of the text, which is
exact too. Scanning finds exact places, so nothing moves in its tokens; then nothing moves in what is
made of them, which is to say that all places in it are exact. A host may add places to a run, and may
take them from what it was given.

## Contents
- `Location.orStart`: exact places stay, the others become the start.
- `Outline.Row.relocate`, `Program.outline_relocate`: outlines at other places.
- `PlacedIn`, `Host.StaysIn`: a host whose places are among given ones when those it is given are.
- `Host.movingArguments`: the host with which a run is compared.
- `placesOf`: the places in what comes of an input.
- `places_exact`: all places that are reported for a source text.
-/

namespace Lox

/-! ## The start of a text for all other places -/

namespace Location

variable {units : List Nat}

theorem exact_start (units : List Nat) : start.Exact units := exact_behindUnits List.nil_prefix

/-- The place itself where it is exact, and the start of the text otherwise. -/
def orStart (units : List Nat) (l : Location) : Location := if l.Exact units then l else start

theorem exact_orStart (units : List Nat) (l : Location) : (l.orStart units).Exact units := by
  unfold orStart
  split
  · assumption
  · exact exact_start units

theorem Exact.orStart_eq {l : Location} (h : l.Exact units) : l.orStart units = l := if_pos h

end Location

open Location

/-! ## Outlines at other places -/

section Outlines

variable (move : Location → Location)

/-- A row at another place. -/
def Outline.Row.relocate (row : Outline.Row) : Outline.Row :=
  { row with span := row.span.relocate move }

mutual

theorem Expr.rows_relocate (n : Nat) (e : Expr) :
    (e.relocate move).rows n = (e.rows n).map (·.relocate move) := by
  cases e with
  | literal | «variable» | this | super => rfl
  | grouping inner span | unary op inner span | assign name depth inner span
  | get inner name span => exact congrArg (_ :: ·) (inner.rows_relocate (n + 1))
  | binary op left right span | logical op left right span =>
      have hleft := left.rows_relocate (n + 1)
      have hright := right.rows_relocate (n + 1)
      simp only [Expr.relocate, Expr.rows, hleft, hright, List.map_cons, List.map_append]
      rfl
  | call callee args span =>
      have hcallee := callee.rows_relocate (n + 1)
      have hargs := Expr.rowsOfAll_relocate (n + 1) args
      simp only [Expr.relocate, Expr.rows, hcallee, hargs, List.map_cons, List.map_append]
      rfl
  | set object name value span =>
      have hobject := object.rows_relocate (n + 1)
      have hvalue := value.rows_relocate (n + 1)
      simp only [Expr.relocate, Expr.rows, hobject, hvalue, List.map_cons, List.map_append]
      rfl

theorem Expr.rowsOfAll_relocate (n : Nat) (es : List Expr) :
    Expr.rowsOfAll n (Expr.relocateAll move es) =
      (Expr.rowsOfAll n es).map (·.relocate move) := by
  cases es with
  | nil => rfl
  | cons e es =>
      rw [Expr.relocateAll, Expr.rowsOfAll, Expr.rowsOfAll, e.rows_relocate n,
        Expr.rowsOfAll_relocate n es, List.map_append]

end

theorem Expr.rowsOfOption_relocate (n : Nat) (e : Option Expr) :
    Expr.rowsOfOption n (e.map (·.relocate move)) =
      (Expr.rowsOfOption n e).map (·.relocate move) := by
  cases e with
  | none => rfl
  | some e => exact e.rows_relocate move n

mutual

theorem Stmt.rows_relocate (n : Nat) (s : Stmt) :
    (s.relocate move).rows n = (s.rows n).map (·.relocate move) := by
  cases s with
  | expression value span | print value span =>
      exact congrArg (_ :: ·) (value.rows_relocate move (n + 1))
  | block body span => exact congrArg (_ :: ·) (Decl.rowsOfAll_relocate (n + 1) body)
  | ifThenElse condition thenBranch elseBranch span =>
      have hcondition := condition.rows_relocate move (n + 1)
      have hthen := thenBranch.rows_relocate (n + 1)
      cases elseBranch with
      | none =>
          simp only [Stmt.relocate, Stmt.rows, hcondition, hthen, List.map_cons, List.map_append]
          rfl
      | some s =>
          have helse := s.rows_relocate (n + 1)
          simp only [Stmt.relocate, Stmt.rows, hcondition, hthen, helse, List.map_cons,
            List.map_append]
          rfl
  | whileLoop condition body increment span =>
      have hcondition := condition.rows_relocate move (n + 1)
      have hbody := body.rows_relocate (n + 1)
      have hincrement := Expr.rowsOfOption_relocate move (n + 1) increment
      simp only [Stmt.relocate, Stmt.rows, hcondition, hbody, hincrement, List.map_cons,
        List.map_append]
      rfl
  | «break» | «continue» => rfl
  | «return» value span => exact congrArg (_ :: ·) (Expr.rowsOfOption_relocate move (n + 1) value)

theorem Decl.rows_relocate (n : Nat) (d : Decl) :
    (d.relocate move).rows n = (d.rows n).map (·.relocate move) := by
  cases d with
  | var name initial span =>
      exact congrArg (_ :: ·) (Expr.rowsOfOption_relocate move (n + 1) initial)
  | function decl => exact decl.rows_relocate n
  | «class» name superclass methods span =>
      have hmethods := FunctionDecl.rowsOfAll_relocate (n + 1) methods
      simp only [Decl.relocate, Decl.rows, hmethods, List.map_cons, List.map_append]
      cases superclass <;> rfl
  | stmt s => exact s.rows_relocate n

theorem Decl.rowsOfAll_relocate (n : Nat) (ds : List Decl) :
    Decl.rowsOfAll n (Decl.relocateAll move ds) = (Decl.rowsOfAll n ds).map (·.relocate move) := by
  cases ds with
  | nil => rfl
  | cons d ds =>
      rw [Decl.relocateAll, Decl.rowsOfAll, Decl.rowsOfAll, d.rows_relocate n,
        Decl.rowsOfAll_relocate n ds, List.map_append]

theorem FunctionDecl.rows_relocate (n : Nat) (f : FunctionDecl) :
    (f.relocate move).rows n = (f.rows n).map (·.relocate move) := by
  obtain ⟨name, params, body, span⟩ := f
  have hbody := Decl.rowsOfAll_relocate (n + 1) body
  simp only [FunctionDecl.relocate, FunctionDecl.rows, hbody, List.map_cons, List.map_append,
    List.map_map]
  rfl

theorem FunctionDecl.rowsOfAll_relocate (n : Nat) (fs : List FunctionDecl) :
    FunctionDecl.rowsOfAll n (FunctionDecl.relocateAll move fs) =
      (FunctionDecl.rowsOfAll n fs).map (·.relocate move) := by
  cases fs with
  | nil => rfl
  | cons f fs =>
      rw [FunctionDecl.relocateAll, FunctionDecl.rowsOfAll, FunctionDecl.rowsOfAll,
        f.rows_relocate n, FunctionDecl.rowsOfAll_relocate n fs, List.map_append]

end

/-- **The outline** has a row for each node, and the rows move with the nodes. -/
theorem Program.outline_relocate (p : Program) :
    (p.relocate move).outline = p.outline.map (·.relocate move) :=
  congrArg (_ :: ·) (Decl.rowsOfAll_relocate move 1 p.body)

end Outlines

/-! ## Hosts that stay in a set of places -/

/-- All places in `a` are of `S`: what leaves those where they are leaves `a` as it is. The function
`relocate` moves the places in it. -/
def PlacedIn {α : Type} (relocate : (Location → Location) → α → α) (S : Location → Prop) (a : α) :
    Prop :=
  ∀ move, (∀ l, S l → move l = l) → relocate move a = a

/-- Asked with places of `S` alone, the host answers with places of `S` alone. The callbacks are not
given any, and fail with none but these. -/
structure Host.StaysIn (host : Host) (S : Location → Prop) : Prop where
  call : ∀ (name : String) (c : Host.Call), PlacedIn Host.Call.relocate S c →
    PlacedIn Host.Reply.relocate S (host.call name c)
  onPrint : ∀ (history : Array Event) (text : String) (f : Failure),
    host.onPrint history text = some f → PlacedIn Failure.relocate S f
  onExit : ∀ (history : Array Event) (code : Float) (f : Failure),
    host.onExit history code = some f → PlacedIn Failure.relocate S f

/-- A host that only passes places on stays in every set of places. -/
theorem Host.PassesPlacesOn.staysIn {host : Host} (h : host.PassesPlacesOn) (S : Location → Prop) :
    host.StaysIn S where
  call name c hc move hmove := by
    have hpass := (h move).call name c
    rwa [hc move hmove, eq_comm] at hpass
  onPrint history text f hf move _ := (h move).onPrint history text f hf
  onExit history code f hf move _ := (h move).onExit history code f hf

theorem Host.Call.relocate_relocate (f g : Location → Location) (c : Host.Call) :
    (c.relocate f).relocate g = c.relocate (g ∘ f) := by
  have hargs : (c.args.map (·.relocate f)).map (·.relocate g) =
      c.args.map (·.relocate (g ∘ f)) := by
    rw [List.map_map]
    exact List.map_congr_left fun v _ => v.relocate_relocate f g
  unfold Host.Call.relocate
  dsimp only
  rw [hargs]
  rfl

/-- The host whose functions are called with moved places. -/
def Host.movingArguments (host : Host) (move : Location → Location) : Host :=
  { host with functions := host.functions.map fun f => { f with run c := f.run (c.relocate move) } }

theorem Host.call_movingArguments (host : Host) (move : Location → Location) (name : String)
    (c : Host.Call) : (host.movingArguments move).call name c = host.call name (c.relocate move) := by
  unfold Host.call Host.movingArguments
  dsimp only
  rw [Table.get?_map]
  cases host.functions.get? name <;> rfl

/-- **Moving arguments and results.** A host that stays in a set of places does with moved places what
it does when it is called with moved ones, for its answers are not moved. -/
theorem Host.StaysIn.passesTo {host : Host} {S : Location → Prop} (h : host.StaysIn S)
    {move : Location → Location} (hinto : ∀ l, S (move l)) (hfix : ∀ l, S l → move l = l) :
    (host.movingArguments move).PassesTo host move where
  call name c := by
    have hcall : PlacedIn Host.Call.relocate S (c.relocate move) := by
      intro again hagain
      have hsame : again ∘ move = move := funext fun l => hagain _ (hinto l)
      rw [Host.Call.relocate_relocate, hsame]
    rw [Host.call_movingArguments]
    exact (h.call name _ hcall move hfix).symm
  onPrint history text := by
    show host.onPrint history text = (host.onPrint history text).map (·.relocate move)
    cases hprint : host.onPrint history text with
    | none => rfl
    | some f => exact congrArg some (h.onPrint history text f hprint move hfix).symm
  onExit history code := by
    show host.onExit history code = (host.onExit history code).map (·.relocate move)
    cases hexit : host.onExit history code with
    | none => rfl
    | some f => exact congrArg some (h.onExit history code f hexit move hfix).symm
  clock := rfl
  random := rfl

/-! ## The places that are reported -/

/-- Where an error of a source text is. -/
def SourceError.location : SourceError → Location
  | .lexical e => e.location
  | .syntactic e => e.location

/-- Where a failure is, if it has a place. -/
def Failure.location? : Failure → Option Location
  | .runtime e => e.location
  | .internal e => e.location
  | .stackExhausted | .host _ | .exited _ => none

/-- The places in what comes of an input. -/
def placesOf : Except Stop RunResult → List Location
  | .ok .ok => []
  | .ok (.syntaxErrors errors) => errors.map (·.location)
  | .ok (.staticErrors errors) => errors.map (·.location)
  | .ok (.runtimeError e) => e.location.toList
  | .error (.failure f) => f.location?.toList
  | .error .outOfFuel => []

section Moved

variable {move : Location → Location}

theorem SourceError.location_relocate (e : SourceError) :
    (e.relocate move).location = move e.location := by
  cases e <;> rfl

/-- **The result at other places** has its places there. -/
theorem placesOf_relocate (r : Except Stop RunResult) :
    placesOf (relocateResult move r) = (placesOf r).map move := by
  cases r with
  | ok result =>
      cases result with
      | ok => rfl
      | syntaxErrors errors =>
          show (errors.map (·.relocate move)).map (·.location) = (errors.map _).map move
          rw [List.map_map, List.map_map]
          exact List.map_congr_left fun e _ => e.location_relocate
      | staticErrors errors =>
          show (errors.map (·.relocate move)).map (·.location) = (errors.map _).map move
          rw [List.map_map, List.map_map]
          rfl
      | runtimeError e =>
          obtain ⟨cause, location⟩ := e
          cases location <;> rfl
  | error stop =>
      cases stop with
      | outOfFuel => rfl
      | failure f =>
          cases f with
          | runtime e | internal e =>
              obtain ⟨cause, location⟩ := e
              cases location <;> rfl
          | stackExhausted | host message | exited code => rfl

/-! ### New sessions -/

/-- A new session has no places. -/
theorem Session.relocate_of_create {options : Options} {s : Session}
    (hcreate : Session.create options = .ok s) : s.relocate move = s := by
  obtain ⟨maxCallDepth, globals, hglobals, rfl⟩ := Session.eq_of_create hcreate
  have hmap : globals.map (·.relocate move) = globals := by
    -- native functions have no places
    refine globalsOf_induction (P := fun t => t.map (·.relocate move) = t) ?_ (fun t name n ht => ?_)
      hglobals
    · rfl
    · rw [Table.map_put, ht]
      rfl
  have hmachine : (Machine.initial globals).relocate move = Machine.initial globals := by
    have hempty : Memory.empty.relocate move = Memory.empty := by simp [Memory.relocate, Memory.empty]
    have hmemory := Memory.newScope_relocate move Memory.empty globals
    rw [hmap, hempty] at hmemory
    have hscopes : (Memory.empty.newScope globals).2.relocate move =
        (Memory.empty.newScope globals).2 := (congrArg Prod.snd hmemory).symm
    unfold Machine.initial Machine.relocate
    rw [hscopes]
  unfold Session.relocate
  dsimp only
  rw [hmachine]

/-- The session whose host functions are called with moved places. -/
def Session.movingArguments (s : Session) (move : Location → Location) : Session :=
  { s with setting := { s.setting with host := s.setting.host.movingArguments move } }

/-- **Where nothing moves, the result is a moved one**: it is the moved result of the session whose host
functions are called with moved places. -/
theorem Session.runRecovered_moved {s : Session} {S : Location → Prop} {r : Recovered}
    (hhost : s.setting.host.StaysIn S) (hinto : ∀ l, S (move l)) (hfix : ∀ l, S l → move l = l)
    (hs : s.relocate move = s) (hr : r.relocate move = r) (fuel : Nat) :
    ∃ result, (s.runRecovered fuel r).1 = relocateResult move result := by
  have hpasses : (s.movingArguments move).setting.PassesTo s.setting move :=
    ⟨hhost.passesTo hinto hfix, rfl⟩
  have hrun := Session.runRecovered_passesTo hpasses fuel r
  have hmachine : s.machine.relocate move = s.machine := congrArg Session.machine hs
  have hsame : { (s.movingArguments move).relocate move with setting := s.setting } = s := by
    unfold Session.movingArguments Session.relocate
    dsimp only
    rw [hmachine]
  rw [hsame, hr] at hrun
  exact ⟨_, congrArg Prod.fst hrun⟩

end Moved

/-! ## What is made of a source text -/

section Exact

variable {source : List Char} {move : Location → Location}

/-- Exact places stay, in all that scanning finds. -/
theorem scan_orStart (source : List Char) :
    (scan source).relocate (orStart (source.flatMap Text.units)) = scan source := by
  obtain ⟨htokens, hfinish, herrors⟩ := exact_scan source
  have htoken (t : Token) (ht : t ∈ (scan source).tokens) :
      t.relocate (orStart (source.flatMap Text.units)) = t := by
    obtain ⟨hstart, hstop⟩ := htokens t ht
    unfold Token.relocate Span.relocate
    rw [hstart.orStart_eq, hstop.orStart_eq]
  have herror (e : LexicalError) (he : e ∈ (scan source).errors) :
      e.relocate (orStart (source.flatMap Text.units)) = e := by
    unfold LexicalError.relocate
    rw [(herrors e he).orStart_eq]
  unfold Scan.relocate
  rw [List.map_congr_left htoken, List.map_congr_left herror, hfinish.orStart_eq, List.map_id',
    List.map_id']

/-- **Reading copies places.** -/
theorem recover_orStart (source : List Char) :
    (Program.recover source).relocate (orStart (source.flatMap Text.units)) =
      Program.recover source := by
  rw [Program.recover_eq, ← Scan.recover_relocate, scan_orStart]

variable {units : List Nat}

theorem exact_relocate_orStart (span : Span) : (span.relocate (orStart units)).Exact units :=
  ⟨exact_orStart units _, exact_orStart units _⟩

/-- A program in which nothing moves has exact places alone. -/
theorem Program.exact_outline {p : Program} (h : p.relocate (orStart units) = p) :
    ∀ row ∈ p.outline, row.span.Exact units := by
  intro row hrow
  rw [← h, p.outline_relocate] at hrow
  obtain ⟨row, -, rfl⟩ := List.mem_map.1 hrow
  exact exact_relocate_orStart row.span

/-- **Reading** finds exact errors. -/
theorem exact_recover (source : List Char) :
    ∀ e ∈ (Program.recover source).errors, e.location.Exact (source.flatMap Text.units) := by
  intro e he
  have herrors : (Program.recover source).errors.map
      (·.relocate (orStart (source.flatMap Text.units))) = (Program.recover source).errors :=
    congrArg Recovered.errors (recover_orStart source)
  rw [← herrors] at he
  obtain ⟨e, -, rfl⟩ := List.mem_map.1 he
  rw [e.location_relocate]
  exact exact_orStart _ _

/-- **Resolving** keeps the places of a program, and reports its errors at them. -/
theorem exact_resolve (table : Resolutions) {p : Program} (h : p.relocate (orStart units) = p) :
    (∀ row ∈ (table.resolve p).1.value.outline, row.span.Exact units) ∧
      ∀ e ∈ (table.resolve p).1.errors, e.location.Exact units := by
  have hchecked := (table.resolve_relocate (orStart units) p).1
  rw [h] at hchecked
  constructor
  · exact Program.exact_outline (congrArg Checked.value hchecked).symm
  · intro e he
    rw [congrArg Checked.errors hchecked] at he
    obtain ⟨e, -, rfl⟩ := List.mem_map.1 he
    exact exact_orStart _ _

/-- **Running** a text in a session of its own, with a host that stays in the places of the text. -/
theorem exact_runSource {options : Options} {result : Except Stop RunResult} {session : Session}
    (hhost : options.host.StaysIn (·.Exact (source.flatMap Text.units)))
    (hrun : runSource options source = .ok (result, session)) :
    ∀ l ∈ placesOf result, l.Exact (source.flatMap Text.units) := by
  unfold runSource at hrun
  cases hcreate : Session.create { options with echo := false } with
  | error e =>
      rw [hcreate] at hrun
      exact nomatch hrun
  | ok s =>
      rw [hcreate] at hrun
      have hends : s.runRecovered ampleFuel (Program.recover source) = (result, session) := by
        rw [← s.runWith_eq_runRecovered]
        exact Except.ok.inj hrun
      have hstays : s.setting.host.StaysIn (·.Exact (source.flatMap Text.units)) := by
        rw [Session.host_of_create hcreate]
        exact hhost
      obtain ⟨result₀, hmoved⟩ := Session.runRecovered_moved hstays (exact_orStart _)
        (fun l hl => hl.orStart_eq) (Session.relocate_of_create hcreate) (recover_orStart source)
        ampleFuel
      rw [hends] at hmoved
      intro l hl
      rw [show result = relocateResult _ result₀ from hmoved, placesOf_relocate] at hl
      obtain ⟨l, -, rfl⟩ := List.mem_map.1 hl
      exact exact_orStart _ _

end Exact

/-- **All reported places are exact**, for every source text: those of its tokens and lexical errors, of
every node of the tree that is made of it, whether all of it could be read or not, of all syntax errors,
of the static errors and the resolved tree behind any earlier inputs, and of what comes of running it
where the host stays in the places of the text. -/
theorem places_exact (source : List Char) :
    (scan source).Exact (source.flatMap Text.units) ∧
    (∀ row ∈ (Program.recover source).program.outline,
      row.span.Exact (source.flatMap Text.units)) ∧
    (∀ e ∈ (Program.recover source).errors, e.location.Exact (source.flatMap Text.units)) ∧
    (∀ p, Program.parse source = .ok p →
      ∀ row ∈ p.outline, row.span.Exact (source.flatMap Text.units)) ∧
    (∀ e, Program.parse source = .error e → e.location.Exact (source.flatMap Text.units)) ∧
    (∀ table : Resolutions,
      let checked := (table.resolve (Program.recover source).program).1
      (∀ row ∈ checked.value.outline, row.span.Exact (source.flatMap Text.units)) ∧
        ∀ e ∈ checked.errors, e.location.Exact (source.flatMap Text.units)) ∧
    ∀ options : Options, options.host.StaysIn (·.Exact (source.flatMap Text.units)) →
      ∀ result session, runSource options source = .ok (result, session) →
        ∀ l ∈ placesOf result, l.Exact (source.flatMap Text.units) := by
  have hprogram : (Program.recover source).program.relocate (orStart (source.flatMap Text.units)) =
      (Program.recover source).program := congrArg Recovered.program (recover_orStart source)
  have hrows := Program.exact_outline hprogram
  have herrors := exact_recover source
  refine ⟨exact_scan source, hrows, herrors, ?_, ?_, ?_, ?_⟩
  · intro p hp
    rcases Parsing.parse_recover source with ⟨q, hparse, hrecover⟩ | ⟨e, hparse, -⟩
    · cases hp.symm.trans hparse
      rw [hrecover] at hrows
      exact hrows
    · exact nomatch hp.symm.trans hparse
  · intro e he
    rcases Parsing.parse_recover source with ⟨q, hparse, -⟩ | ⟨e', hparse, hhead⟩
    · exact nomatch he.symm.trans hparse
    · cases he.symm.trans hparse
      exact herrors e (List.mem_of_head? hhead)
  · intro table
    exact exact_resolve table hprogram
  · intro options hhost result session hrun
    exact exact_runSource hhost hrun

/-- A variable whose text has two lines, a comment, and on the third line a call of the text. -/
def manyLines : List Char := "var s = \"a\r\n😀\"; // é\n  s();".toList

/-- The call fails on the third line, in the third column. -/
theorem places_exact_of_call :
    Host.plain.StaysIn (·.Exact (manyLines.flatMap Text.units)) ∧
    ∃ result session,
      runSource (Options.standard Host.plain) manyLines = .ok (result, session) ∧
      placesOf result = [⟨3, 3, 24⟩] ∧
      (⟨3, 3, 24⟩ : Location).Exact (manyLines.flatMap Text.units) := by
  have hstays := Host.passesPlacesOn_plain.staysIn (·.Exact (manyLines.flatMap Text.units))
  obtain ⟨_, _, _, _, _, _, hrun⟩ := places_exact manyLines
  refine ⟨hstays, _, _, rfl, ?_, ?_⟩
  · decide +kernel
  · refine hrun (Options.standard Host.plain) hstays _ _ rfl _ ?_
    decide +kernel

end Lox
