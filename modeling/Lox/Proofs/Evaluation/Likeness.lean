import Lox.Proofs.Renaming.Tables
import Lox.Proofs.Sessions.Starting

/-!
# Values that differ in their functions

When two runs are compared, their values often differ only in the functions in them: these were declared
by other texts, or see other scopes. Such values are **alike**. A program finds out little about a
function: its name, the number of its parameters, and what a call of it does. So operators and built-in
functions make values that are alike from values that are alike, and show the same.

## Contents
- `Closure.Like`, `Class.Like`, `Value.Like`: values that are alike, for a relation of functions.
- `mono`: with a weaker relation of functions.
- `findMethod?`, `arity_eq`, `text_eq`, `equals_eq` and the others: what a program can find out.
- `RenamedResult`, `UnaryOp.apply_like`, `BinaryOp.apply_like`: what operators make of such values.
- `Builtin.rounded_like` to `Builtin.helpText_like`: what built-in functions make of them.
- `renamed_globalsOf`: the globals of a new session.
-/

namespace Lox

/-- How the functions of two runs are related, those that are methods and those that are not. -/
abbrev FunctionRel := Bool → Closure → Closure → Prop

/-- Functions that are alike: related, and the same as far as a program can tell without a call. -/
structure Closure.Like (K : FunctionRel) (isMethod : Bool) (c c' : Closure) : Prop where
  name_eq : c'.name = c.name
  arity_eq : c'.arity = c.arity
  isInitializer_eq : c'.isInitializer = c.isInitializer
  related : K isMethod c c'

/-- Methods that are alike. -/
abbrev LikeMethods (K : FunctionRel) : List (String × Closure) → List (String × Closure) → Prop :=
  List.Forall₂ (Table.RenamedBinding .same (Closure.Like K true))

/-- Classes whose methods are alike. -/
inductive Class.Like (K : FunctionRel) : Class → Class → Prop
  | base {id : Nat} {name : String} {methods methods' : List (String × Closure)}
      (hmethods : LikeMethods K methods methods') :
      Like K ⟨id, name, none, methods⟩ ⟨id, name, none, methods'⟩
  | derived {id : Nat} {name : String} {c c' : Class} {methods methods' : List (String × Closure)}
      (hsuper : Like K c c') (hmethods : LikeMethods K methods methods') :
      Like K ⟨id, name, some c, methods⟩ ⟨id, name, some c', methods'⟩

/-- Instances of classes that are alike. -/
inductive Instance.Like (K : FunctionRel) : Instance → Instance → Prop
  | mk (id : Nat) {c c' : Class} (hclass : c.Like K c') : Like K ⟨id, c⟩ ⟨id, c'⟩

/-- Values that are alike. -/
inductive Value.Like (K : FunctionRel) : Value → Value → Prop
  | nil : Like K .nil .nil
  | bool (b : Bool) : Like K (.bool b) (.bool b)
  | number (x : Float) : Like K (.number x) (.number x)
  | string (s : String) : Like K (.string s) (.string s)
  | function (id : Nat) {closure closure' : Closure} (hclosure : closure.Like K false closure') :
      Like K (.function id closure) (.function id closure')
  | class {c c' : Class} (hclass : c.Like K c') : Like K (.class c) (.class c')
  | method (id : Nat) {closure closure' : Closure} {i i' : Instance}
      (hclosure : closure.Like K true closure') (hreceiver : i.Like K i') :
      Like K (.method id closure i) (.method id closure' i')
  | native (n : Native) : Like K (.native n) (.native n)
  | instance {i i' : Instance} (hinstance : i.Like K i') : Like K (.instance i) (.instance i')

/-- Callables that are alike. -/
inductive Callable.Like (K : FunctionRel) : Callable → Callable → Prop
  | function {closure closure' : Closure} (hclosure : closure.Like K false closure') :
      Like K (.function closure) (.function closure')
  | method {closure closure' : Closure} {i i' : Instance}
      (hclosure : closure.Like K true closure') (hreceiver : i.Like K i') :
      Like K (.method closure i) (.method closure' i')
  | class {c c' : Class} (hclass : c.Like K c') : Like K (.class c) (.class c')
  | native (n : Native) : Like K (.native n) (.native n)

/-- Lists of values that are alike, one by one. -/
abbrev LikeValues (K : FunctionRel) : List Value → List Value → Prop :=
  List.Forall₂ (Value.Like K)

/-! ## Weaker relations -/

section Mono

variable {K L : FunctionRel} (hle : ∀ {isMethod c c'}, K isMethod c c' → L isMethod c c')

include hle

theorem Closure.Like.mono {isMethod : Bool} {c c' : Closure} (h : c.Like K isMethod c') :
    c.Like L isMethod c' := ⟨h.name_eq, h.arity_eq, h.isInitializer_eq, hle h.related⟩

theorem LikeMethods.mono {methods methods' : List (String × Closure)}
    (h : LikeMethods K methods methods') : LikeMethods L methods methods' := by
  refine List.Forall₂.imp ?_ h
  intro m m' hm
  exact ⟨hm.1, hm.2.mono hle⟩

theorem Class.Like.mono {c c' : Class} (h : c.Like K c') : c.Like L c' := by
  induction h with
  | base hmethods => exact .base (LikeMethods.mono hle hmethods)
  | derived _ hmethods ih => exact .derived ih (LikeMethods.mono hle hmethods)

theorem Instance.Like.mono {i i' : Instance} (h : i.Like K i') : i.Like L i' := by
  cases h with
  | mk id hclass => exact .mk id (hclass.mono hle)

theorem Value.Like.mono {v v' : Value} (h : v.Like K v') : v.Like L v' := by
  cases h with
  | nil => exact .nil
  | bool b => exact .bool b
  | number x => exact .number x
  | string s => exact .string s
  | function id hclosure => exact .function id (hclosure.mono hle)
  | «class» hclass => exact .class (hclass.mono hle)
  | method id hclosure hreceiver => exact .method id (hclosure.mono hle) (hreceiver.mono hle)
  | native n => exact .native n
  | «instance» hinstance => exact .instance (hinstance.mono hle)

theorem LikeValues.mono {vs vs' : List Value} (h : LikeValues K vs vs') : LikeValues L vs vs' :=
  List.Forall₂.imp (fun _ _ hv => hv.mono hle) h

end Mono

/-! ## What a program can find out about a value -/

section Observations

variable {K : FunctionRel}

theorem Class.Like.name_eq {c c' : Class} (h : c.Like K c') : c'.name = c.name := by
  cases h <;> rfl

theorem Class.Like.id_eq {c c' : Class} (h : c.Like K c') : c'.id = c.id := by
  cases h <;> rfl

/-- Both classes find the same method, or none. -/
theorem Class.Like.findMethod? {c c' : Class} (h : c.Like K c') (name : String) :
    Option.Rel (Closure.Like K true) (c.findMethod? name) (c'.findMethod? name) := by
  induction h with
  | base hmethods =>
      unfold Class.findMethod?
      rcases Table.cases_of_rel (Table.rel_find? hmethods name) with
        ⟨hnone, hnone'⟩ | ⟨c, c', hsome, hsome', hclosure⟩
      · rw [hnone, show Table.find? name _ = _ from hnone']
        exact .none
      · rw [hsome, show Table.find? name _ = _ from hsome']
        exact .some hclosure
  | derived _ hmethods ih =>
      unfold Class.findMethod?
      rcases Table.cases_of_rel (Table.rel_find? hmethods name) with
        ⟨hnone, hnone'⟩ | ⟨c, c', hsome, hsome', hclosure⟩
      · rw [hnone, show Table.find? name _ = _ from hnone']
        exact ih
      · rw [hsome, show Table.find? name _ = _ from hsome']
        exact .some hclosure

theorem Value.Like.callable? {v v' : Value} (h : v.Like K v') :
    Option.Rel (Callable.Like K) v.callable? v'.callable? := by
  cases h with
  | nil | bool | number | string | «instance» => exact .none
  | function id hclosure => exact .some (.function hclosure)
  | «class» hclass => exact .some (.class hclass)
  | method id hclosure hreceiver => exact .some (.method hclosure hreceiver)
  | native n => exact .some (.native n)

theorem Callable.Like.arity_eq {c c' : Callable} (h : c.Like K c') : c'.arity = c.arity := by
  cases h with
  | function hclosure | method hclosure => exact hclosure.arity_eq
  | @«class» c c' hclass =>
      have hfind := hclass.findMethod? initializerName
      unfold Callable.arity
      dsimp only
      generalize c.findMethod? initializerName = found, c'.findMethod? initializerName = found'
        at hfind
      cases hfind with
      | none => rfl
      | some hclosure => exact hclosure.arity_eq
  | native n => rfl

theorem Callable.Like.name_eq {c c' : Callable} (h : c.Like K c') : c'.name = c.name := by
  cases h with
  | function hclosure | method hclosure => exact hclosure.name_eq
  | «class» hclass => exact hclass.name_eq
  | native n => rfl

theorem Callable.Like.description_eq {c c' : Callable} (h : c.Like K c') :
    c'.description = c.description := by
  cases h <;> rfl

namespace Value.Like

variable {v v' u u' : Value}

theorem isTruthy_eq (h : v.Like K v') : v'.isTruthy = v.isTruthy := by
  cases h <;> rfl

theorem typeName_eq (h : v.Like K v') : v'.typeName = v.typeName := by
  cases h <;> rfl

theorem equals_eq (h : v.Like K v') (h' : u.Like K u') : v'.equals u' = v.equals u := by
  cases h with
  | «class» hclass =>
      cases h' with
      | «class» hclass' =>
          show (_ == _) = (_ == _)
          rw [hclass.id_eq, hclass'.id_eq]
      | _ => rfl
  | «instance» hinstance =>
      cases hinstance
      cases h' with
      | «instance» hinstance' =>
          cases hinstance'
          rfl
      | _ => rfl
  | _ => cases h' <;> rfl

theorem text_eq (h : v.Like K v') : v'.text = v.text := by
  cases h with
  | nil | bool | number | string | native => rfl
  | function id hclosure | method id hclosure =>
      unfold Value.text
      dsimp only
      rw [hclosure.name_eq]
  | «class» hclass => exact hclass.name_eq
  | «instance» hinstance =>
      cases hinstance with
      | mk id hclass => exact congrArg (· ++ " instance") hclass.name_eq

theorem ofLiteral (l : Literal) : (Value.ofLiteral l).Like K (.ofLiteral l) := by
  cases l with
  | nil => exact .nil
  | bool b => exact .bool b
  | number x => exact .number x
  | string s => exact .string s

end Value.Like

/-! ## Operators and built-in functions -/

/-- The results of two computations: both related, or the same reason why there is none. -/
inductive RenamedResult {ε α β : Type} (R : α → β → Prop) : Except ε α → Except ε β → Prop
  | ok {a : α} {b : β} (h : R a b) : RenamedResult R (.ok a) (.ok b)
  | error (e : ε) : RenamedResult R (.error e) (.error e)

variable {v v' u u' : Value}

theorem UnaryOp.apply_like (op : UnaryOp) (h : v.Like K v') :
    RenamedResult (Value.Like K) (op.apply v) (op.apply v') := by
  cases op with
  | not =>
      unfold UnaryOp.apply
      dsimp only
      rw [h.isTruthy_eq]
      exact .ok (.bool _)
  | negate =>
      cases h with
      | number x => exact .ok (.number _)
      | _ => exact .error _

theorem onNumbers_like {f : Float → Float → Value} (hf : ∀ x y, (f x y).Like K (f x y))
    (h : v.Like K v') (h' : u.Like K u') :
    RenamedResult (Value.Like K) (onNumbers f v u) (onNumbers f v' u') := by
  cases h with
  | number x =>
      cases h' with
      | number y => exact .ok (hf x y)
      | _ => exact .error _
  | _ => exact .error _

theorem addValues_like (h : v.Like K v') (h' : u.Like K u') :
    RenamedResult (Value.Like K) (addValues v u) (addValues v' u') := by
  cases h with
  | number x =>
      cases h' with
      | number y => exact .ok (.number _)
      | _ => exact .error _
  | string s =>
      cases h' with
      | string t => exact .ok (.string _)
      | _ => exact .error _
  | _ => exact .error _

theorem BinaryOp.apply_like (op : BinaryOp) (h : v.Like K v') (h' : u.Like K u') :
    RenamedResult (Value.Like K) (op.apply v u) (op.apply v' u') := by
  cases op with
  | equal | notEqual =>
      unfold BinaryOp.apply
      dsimp only
      rw [h.equals_eq h']
      exact .ok (.bool _)
  | add => exact addValues_like h h'
  | subtract | multiply | divide => exact onNumbers_like (fun _ _ => .number _) h h'
  | less | greater | lessEqual | greaterEqual => exact onNumbers_like (fun _ _ => .bool _) h h'

theorem LogicalOp.decides_like (op : LogicalOp) (h : v.Like K v') :
    op.decides v' = op.decides v := by
  cases op with
  | or => exact h.isTruthy_eq
  | and => exact congrArg (!·) h.isTruthy_eq

theorem LikeValues.headD {args args' : List Value} (h : LikeValues K args args') :
    (args.headD .nil).Like K (args'.headD .nil) := by
  cases h with
  | nil => exact .nil
  | cons hv _ => exact hv

theorem LikeValues.tail {args args' : List Value} (h : LikeValues K args args') :
    LikeValues K (args.drop 1) (args'.drop 1) := by
  cases h with
  | nil => exact .nil
  | cons _ hvs => exact hvs

namespace Builtin

theorem rounded_like (h : v.Like K v') (h' : u.Like K u') : rounded v' u' = rounded v u := by
  cases h with
  | number x => cases h' <;> rfl
  | _ => rfl

theorem bounds_like (h : v.Like K v') (h' : u.Like K u') : bounds v' u' = bounds v u := by
  cases h with
  | number x => cases h' <;> rfl
  | _ => rfl

theorem exitCode_like (h : v.Like K v') : exitCode v' = exitCode v := by
  cases h <;> rfl

theorem helpText_like (h : v.Like K v') : helpText v' = helpText v := by
  unfold helpText
  rcases Table.cases_of_rel h.callable? with ⟨hnone, hnone'⟩ | ⟨c, c', hsome, hsome', hc⟩
  · rw [hnone, hnone']
  · rw [hsome, hsome']
    dsimp only
    rw [hc.name_eq, hc.description_eq]

end Builtin

end Observations

/-! ## New sessions -/

/-- The globals of a new session are native functions, which are the same in all runs. -/
theorem renamed_globalsOf {R : Value → Value → Prop} (hnative : ∀ n, R (.native n) (.native n))
    {options : Options} {globals : Table Value} (heq : globalsOf options = .ok globals) :
    globals.Renamed .same R globals := by
  refine globalsOf_induction (P := fun t => t.Renamed .same R t) ?_ (fun t name n ht => ?_) heq
  · exact .empty
  · exact ht.put name (hnative n)

end Lox
