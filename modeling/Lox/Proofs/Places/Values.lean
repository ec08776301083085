import Lox.Proofs.Places.Syntax
import Lox.Session

/-!
# Moving values to other places

Functions and classes carry the syntax that they were declared with, and so its places; failures carry
the place at which they arose. Everything else in a running program has no place. To relocate a value,
a machine or a failure is to relocate the syntax and the places in it. What a program can find out
about a value does not depend on them.

## Contents
- `Table.map`: a table with other values under the same names.
- `Value.relocate`, `Memory.relocate`, `Machine.relocate`: values and machines at other places.
- `Failure.relocate`, `Flow.relocate`, `RunResult.relocate`: ends at other places.
- `text_relocate`, `UnaryOp.apply_relocate`, `scope_relocate` and the others: what does not depend on
  places.
- `relocate_id`, `relocate_relocate`: relocation respects identity and composition.
-/

namespace Lox

/-! ## Tables -/

namespace Table

variable {α β : Type}

/-- The same names, with other values. -/
def map (f : α → β) (t : Table α) : Table β := ⟨t.entries.map fun e => (e.1, f e.2)⟩

theorem find?_map (f : α → β) (entries : List (String × α)) (name : String) :
    find? name (entries.map fun e => (e.1, f e.2)) = (find? name entries).map f := by
  induction entries with
  | nil => rfl
  | cons e rest ih =>
      simp only [List.map_cons, find?, ih]
      split <;> rfl

theorem replace_map (f : α → β) (entries : List (String × α)) (name : String) (value : α) :
    replace name (f value) (entries.map fun e => (e.1, f e.2)) =
      (replace name value entries).map fun e => (e.1, f e.2) := by
  induction entries with
  | nil => rfl
  | cons e rest ih =>
      simp only [List.map_cons, replace, ih]
      split <;> rfl

@[simp] theorem map_empty (f : α → β) : (empty : Table α).map f = empty := rfl

@[simp] theorem get?_map (f : α → β) (t : Table α) (name : String) :
    (t.map f).get? name = (t.get? name).map f := find?_map f t.entries name

@[simp] theorem has_map (f : α → β) (t : Table α) (name : String) :
    (t.map f).has name = t.has name := by
  unfold has
  rw [get?_map, Option.isSome_map]

@[simp] theorem names_map (f : α → β) (t : Table α) : (t.map f).names = t.names := by
  unfold names map
  rw [List.map_map]
  rfl

theorem map_put (f : α → β) (t : Table α) (name : String) (value : α) :
    (t.put name value).map f = (t.map f).put name (f value) := by
  unfold put map
  rw [replace_map]

theorem map_ofList (f : α → β) (entries : List (String × α)) :
    (ofList entries).map f = ofList (entries.map fun e => (e.1, f e.2)) := by
  have hfold (t : Table α) : (entries.foldl (fun t e => t.put e.1 e.2) t).map f =
      (entries.map fun e => (e.1, f e.2)).foldl (fun t e => t.put e.1 e.2) (t.map f) := by
    induction entries generalizing t with
    | nil => rfl
    | cons e rest ih => rw [List.foldl_cons, ih, map_put, List.map_cons, List.foldl_cons]
  exact hfold empty

theorem map_id_of {f : α → α} (hf : ∀ a, f a = a) (t : Table α) : t.map f = t := by
  unfold map
  simp only [hf, List.map_id']

theorem map_map {γ : Type} (g : β → γ) (f : α → β) (t : Table α) :
    (t.map f).map g = t.map (g ∘ f) := by
  unfold map
  rw [List.map_map]
  rfl

end Table

/-! ## Relocation -/

section Relocation

variable (move : Location → Location)

/-- A closure at another place. -/
def Closure.relocate (c : Closure) : Closure :=
  { c with declaration := c.declaration.relocate move }

/-- A class at another place. -/
def Class.relocate : Class → Class
  | ⟨id, name, none, methods⟩ => ⟨id, name, none, methods.map fun m => (m.1, m.2.relocate move)⟩
  | ⟨id, name, some superclass, methods⟩ =>
    ⟨id, name, some superclass.relocate, methods.map fun m => (m.1, m.2.relocate move)⟩

/-- An instance whose class is at another place. -/
def Instance.relocate (i : Instance) : Instance := { i with ofClass := i.ofClass.relocate move }

/-- A value at another place. -/
def Value.relocate : Value → Value
  | .nil => .nil
  | .bool b => .bool b
  | .number x => .number x
  | .string s => .string s
  | .function id closure => .function id (closure.relocate move)
  | .class c => .class (c.relocate move)
  | .method id closure receiver => .method id (closure.relocate move) (receiver.relocate move)
  | .native n => .native n
  | .instance i => .instance (i.relocate move)

/-- A callable at another place. -/
def Callable.relocate : Callable → Callable
  | .function closure => .function (closure.relocate move)
  | .method closure receiver => .method (closure.relocate move) (receiver.relocate move)
  | .class c => .class (c.relocate move)
  | .native n => .native n

/-- A memory whose values are at other places. -/
def Memory.relocate (m : Memory) : Memory where
  scopes := m.scopes.map (·.map (·.relocate move))
  fields := m.fields.map (·.map (·.relocate move))
  nextId := m.nextId

/-- A machine whose values are at other places. -/
def Machine.relocate (m : Machine) : Machine := { m with memory := m.memory.relocate move }

/-- A failure at another place. -/
def Failure.relocate : Failure → Failure
  | .runtime e => .runtime { e with location := e.location.map move }
  | .internal e => .internal { e with location := e.location.map move }
  | .stackExhausted => .stackExhausted
  | .host message => .host message
  | .exited code => .exited code

/-- A reason to stop at another place. -/
def Stop.relocate : Stop → Stop
  | .failure f => .failure (f.relocate move)
  | .outOfFuel => .outOfFuel

/-- The end of a statement at another place. -/
def Flow.relocate : Flow → Flow
  | .normal => .normal
  | .break => .break
  | .continue => .continue
  | .return value => .return (value.relocate move)

/-- The call of a host function at another place. -/
def Host.Call.relocate (c : Host.Call) : Host.Call :=
  { c with args := c.args.map (·.relocate move), location := move c.location }

/-- The answer of a host function at another place. -/
def Host.Reply.relocate (r : Host.Reply) : Host.Reply where
  printed := r.printed
  result :=
    match r.result with
    | .ok value => .ok (value.relocate move)
    | .error f => .error (f.relocate move)

/-- The error of a result at another place. Errors found before a program runs are the same, since
they have nothing to do with how it runs. -/
def RunResult.relocate : RunResult → RunResult
  | .ok => .ok
  | .syntaxErrors errors => .syntaxErrors errors
  | .staticErrors errors => .staticErrors errors
  | .runtimeError e => .runtimeError { e with location := e.location.map move }

end Relocation

/-! ## What a program can find out about a value -/

section Observations

variable (move : Location → Location)

@[simp] theorem Closure.name_relocate (c : Closure) : (c.relocate move).name = c.name :=
  c.declaration.name_relocate move

@[simp] theorem Closure.arity_relocate (c : Closure) : (c.relocate move).arity = c.arity := by
  unfold Closure.arity Closure.relocate
  rw [FunctionDecl.params_relocate, List.length_map]

@[simp] theorem Class.name_relocate (c : Class) : (c.relocate move).name = c.name := by
  obtain ⟨id, name, superclass, methods⟩ := c
  cases superclass <;> rfl

@[simp] theorem Class.id_relocate (c : Class) : (c.relocate move).id = c.id := by
  obtain ⟨id, name, superclass, methods⟩ := c
  cases superclass <;> rfl

theorem Class.findMethod?_relocate (c : Class) (name : String) :
    (c.relocate move).findMethod? name = (c.findMethod? name).map (·.relocate move) := by
  obtain ⟨id, n, superclass, methods⟩ := c
  cases superclass with
  | none =>
      simp only [Class.relocate, Class.findMethod?, Table.find?_map]
      cases Table.find? name methods <;> rfl
  | some c =>
      simp only [Class.relocate, Class.findMethod?, Table.find?_map,
        c.findMethod?_relocate name]
      cases Table.find? name methods <;> rfl

theorem Value.callable?_relocate (v : Value) :
    (v.relocate move).callable? = v.callable?.map (·.relocate move) := by
  cases v <;> rfl

@[simp] theorem Callable.arity_relocate (c : Callable) : (c.relocate move).arity = c.arity := by
  cases c with
  | function closure => exact closure.arity_relocate move
  | method closure receiver => exact closure.arity_relocate move
  | «class» c =>
      simp only [Callable.relocate, Callable.arity, c.findMethod?_relocate]
      cases c.findMethod? initializerName with
      | none => rfl
      | some closure => exact closure.arity_relocate move
  | native n => rfl

theorem Callable.name_relocate (c : Callable) : (c.relocate move).name = c.name := by
  cases c with
  | function closure => exact closure.name_relocate move
  | method closure receiver => exact closure.name_relocate move
  | «class» c => exact c.name_relocate move
  | native n => rfl

theorem Callable.description_relocate (c : Callable) :
    (c.relocate move).description = c.description := by
  cases c <;> rfl

@[simp] theorem Value.isTruthy_relocate (v : Value) : (v.relocate move).isTruthy = v.isTruthy := by
  cases v <;> rfl

@[simp] theorem Value.typeName_relocate (v : Value) : (v.relocate move).typeName = v.typeName := by
  cases v <;> rfl

@[simp] theorem Value.equals_relocate (v w : Value) :
    (v.relocate move).equals (w.relocate move) = v.equals w := by
  cases v <;> cases w <;> simp [Value.relocate, Value.equals, Instance.relocate]

@[simp] theorem Value.text_relocate (v : Value) : (v.relocate move).text = v.text := by
  cases v <;> simp [Value.relocate, Value.text, Instance.relocate]

@[simp] theorem Value.relocate_ofLiteral (l : Literal) :
    (Value.ofLiteral l).relocate move = .ofLiteral l := by
  cases l <;> rfl

/-! ## Operators and built-in functions -/

theorem UnaryOp.apply_relocate (op : UnaryOp) (v : Value) :
    op.apply (v.relocate move) = (op.apply v).map (·.relocate move) := by
  cases op <;> cases v <;> rfl

theorem BinaryOp.apply_relocate (op : BinaryOp) (v w : Value) :
    op.apply (v.relocate move) (w.relocate move) = (op.apply v w).map (·.relocate move) := by
  cases op with
  | equal | notEqual =>
      simp only [BinaryOp.apply, Value.equals_relocate]
      rfl
  | add | subtract | multiply | divide | less | greater | lessEqual | greaterEqual =>
      cases v <;> cases w <;> rfl

theorem LogicalOp.decides_relocate (op : LogicalOp) (v : Value) :
    op.decides (v.relocate move) = op.decides v := by
  cases op <;> simp [LogicalOp.decides]

theorem headD_relocate (args : List Value) :
    (args.map (·.relocate move)).headD .nil = (args.headD .nil).relocate move := by
  cases args <;> rfl

theorem headD_drop_relocate (args : List Value) :
    ((args.map (·.relocate move)).drop 1).headD .nil = ((args.drop 1).headD .nil).relocate move := by
  rw [← List.map_drop, headD_relocate]

namespace Builtin

theorem rounded_relocate (v w : Value) :
    rounded (v.relocate move) (w.relocate move) = rounded v w := by
  cases v <;> cases w <;> rfl

theorem bounds_relocate (v w : Value) :
    bounds (v.relocate move) (w.relocate move) = bounds v w := by
  cases v <;> cases w <;> rfl

theorem exitCode_relocate (v : Value) : exitCode (v.relocate move) = exitCode v := by
  cases v <;> rfl

theorem helpText_relocate (v : Value) : helpText (v.relocate move) = helpText v := by
  unfold helpText
  rw [v.callable?_relocate]
  cases v.callable? with
  | none => rfl
  | some c => simp only [Option.map_some, c.name_relocate, c.description_relocate]

end Builtin

/-! ## Memory -/

namespace Memory

@[simp] theorem scope_relocate (m : Memory) (i : Nat) :
    (m.relocate move).scope i = (m.scope i).map (·.relocate move) := by
  simp only [scope, relocate, Array.getD_eq_getD_getElem?, Array.getElem?_map]
  cases m.scopes[i]? <;> rfl

@[simp] theorem fieldsOf_relocate (m : Memory) (i : Instance) :
    (m.relocate move).fieldsOf (i.relocate move) = (m.fieldsOf i).map (·.relocate move) := by
  simp only [fieldsOf, relocate, Instance.relocate, Array.getD_eq_getD_getElem?,
    Array.getElem?_map]
  cases m.fields[i.id]? <;> rfl

theorem newScope_relocate (m : Memory) (bindings : Table Value) :
    (m.relocate move).newScope (bindings.map (·.relocate move)) =
      ((m.newScope bindings).1, (m.newScope bindings).2.relocate move) := by
  simp only [newScope, relocate, Array.size_map, Array.map_push]

theorem newInstance_relocate (m : Memory) (c : Class) :
    (m.relocate move).newInstance (c.relocate move) =
      ((m.newInstance c).1.relocate move, (m.newInstance c).2.relocate move) := by
  simp only [newInstance, relocate, Instance.relocate, Array.size_map, Array.map_push,
    Table.map_empty]

theorem map_modify_put (tables : Array (Table Value)) (i : Nat) (name : String) (v : Value) :
    (tables.map (·.map (·.relocate move))).modify i (·.put name (v.relocate move)) =
      (tables.modify i (·.put name v)).map (·.map (·.relocate move)) := by
  apply Array.ext_getElem?
  intro j
  simp only [Array.getElem?_modify, Array.getElem?_map]
  cases tables[j]? with
  | none => simp
  | some t =>
      by_cases hi : i = j <;> simp [hi, Table.map_put]

theorem setField_relocate (m : Memory) (i : Instance) (name : String) (v : Value) :
    (m.relocate move).setField (i.relocate move) name (v.relocate move) =
      (m.setField i name v).relocate move := by
  simp only [setField, relocate, Instance.relocate, map_modify_put]

theorem bind_relocate (m : Memory) (i : Nat) (name : String) (v : Value) :
    (m.relocate move).bind i name (v.relocate move) = (m.bind i name v).relocate move := by
  simp only [bind, relocate, map_modify_put]

theorem define_relocate (m : Memory) (chain : Chain) (name : String) (v : Value) :
    (m.relocate move).define chain name (v.relocate move) =
      (m.define chain name v).relocate move := by
  cases chain with
  | nil => rfl
  | cons i outer => exact m.bind_relocate move i name v

@[simp] theorem owner?_relocate (m : Memory) (name : String) (chain : Chain) :
    (m.relocate move).owner? name chain = m.owner? name chain := by
  induction chain with
  | nil => rfl
  | cons i outer ih => simp only [owner?, scope_relocate, Table.has_map, ih]

theorem get?_relocate (m : Memory) (name : String) (chain : Chain) :
    (m.relocate move).get? name chain = (m.get? name chain).map (·.relocate move) := by
  unfold get?
  rw [owner?_relocate]
  cases m.owner? name chain with
  | none => rfl
  | some i => simp only [Option.bind_some, scope_relocate, Table.get?_map]

@[simp] theorem ownerAt_relocate (m : Memory) (chain : Chain) (depth : Nat) (name : String) :
    (m.relocate move).ownerAt chain depth name = m.ownerAt chain depth name := by
  unfold ownerAt
  split
  · rw [scope_relocate, Table.has_map]
  · rfl

theorem getAt_relocate (m : Memory) (chain : Chain) (depth : Nat) (name : String) :
    (m.relocate move).getAt chain depth name = (m.getAt chain depth name).map (·.relocate move) := by
  unfold getAt
  split
  · rename_i i _ _
    rw [scope_relocate, Table.get?_map]
    cases (m.scope i).get? name <;> rfl
  · rfl

end Memory

end Observations

/-! ## Identity -/

@[simp] theorem Closure.relocate_id (c : Closure) : c.relocate id = c := by
  unfold Closure.relocate
  rw [FunctionDecl.relocate_id]

-- `id` would be the number of the class in a theorem of that namespace
theorem relocate_id_class (c : Class) : c.relocate id = c := by
  obtain ⟨n, name, superclass, methods⟩ := c
  cases superclass with
  | none => simp [Class.relocate]
  | some c => simp [Class.relocate, relocate_id_class c]

theorem relocate_id_instance (i : Instance) : i.relocate id = i := by
  unfold Instance.relocate
  rw [relocate_id_class]

@[simp] theorem Value.relocate_id (v : Value) : v.relocate id = v := by
  cases v with
  | nil | bool | number | string | native => rfl
  | function n closure => rw [Value.relocate, Closure.relocate_id]
  | «class» c => rw [Value.relocate, relocate_id_class]
  | method n closure receiver =>
      rw [Value.relocate, Closure.relocate_id, relocate_id_instance]
  | «instance» i => rw [Value.relocate, relocate_id_instance]

@[simp] theorem Memory.relocate_id (m : Memory) : m.relocate id = m := by
  simp [Memory.relocate, Table.map_id_of]

@[simp] theorem Machine.relocate_id (m : Machine) : m.relocate id = m := by
  simp [Machine.relocate]

@[simp] theorem Failure.relocate_id (f : Failure) : f.relocate id = f := by
  cases f <;> simp [Failure.relocate]

@[simp] theorem Stop.relocate_id (stop : Stop) : stop.relocate id = stop := by
  cases stop <;> simp [Stop.relocate]

/-! ## Composition -/

section Composition

variable (f g : Location → Location)

@[simp] theorem Closure.relocate_relocate (c : Closure) :
    (c.relocate f).relocate g = c.relocate (g ∘ f) := by
  unfold Closure.relocate
  rw [FunctionDecl.relocate_relocate]

@[simp] theorem Class.relocate_relocate (c : Class) :
    (c.relocate f).relocate g = c.relocate (g ∘ f) := by
  obtain ⟨n, name, superclass, methods⟩ := c
  have hmethods : (methods.map fun m => (m.1, m.2.relocate f)).map
      (fun m => (m.1, m.2.relocate g)) = methods.map fun m => (m.1, m.2.relocate (g ∘ f)) := by
    simp
  cases superclass with
  | none => simp only [Class.relocate, hmethods]
  | some c => simp only [Class.relocate, hmethods, Class.relocate_relocate c]

@[simp] theorem Instance.relocate_relocate (i : Instance) :
    (i.relocate f).relocate g = i.relocate (g ∘ f) := by
  unfold Instance.relocate
  rw [Class.relocate_relocate]

@[simp] theorem Value.relocate_relocate (v : Value) :
    (v.relocate f).relocate g = v.relocate (g ∘ f) := by
  cases v <;> simp [Value.relocate]

@[simp] theorem Memory.relocate_relocate (m : Memory) :
    (m.relocate f).relocate g = m.relocate (g ∘ f) := by
  have htable : Table.map (Value.relocate g) ∘ Table.map (Value.relocate f) =
      Table.map (Value.relocate (g ∘ f)) := by
    funext t
    rw [Function.comp_apply, Table.map_map]
    congr 1
    exact funext fun v => v.relocate_relocate f g
  simp only [Memory.relocate, Array.map_map, htable]

@[simp] theorem Machine.relocate_relocate (m : Machine) :
    (m.relocate f).relocate g = m.relocate (g ∘ f) := by
  unfold Machine.relocate
  rw [Memory.relocate_relocate]

end Composition

end Lox
