import Lox.Proofs.Evaluation.Likeness

/-!
# Values of programs with other names

A program with other names runs beside the program itself. Their scopes have the same numbers, and a
world tells for each number which naming the scope has. Worlds only grow. Functions and classes carry
the syntax that they were declared with: those of the second run have other names in it, as the namings
of the scopes say that they see. Everything else about a value is the same in both runs. So values of the two
runs are alike, and what is so of values that are alike is so of them.

## Contents
- `World`: the namings of the scopes in memory.
- `Closure.Renamed`, `Class.Renamed`, `Value.Renamed`: values of the two runs.
- `Closure.like_renamed` to `Callable.like_renamed`: they are alike.
- `mono`: what is so in a world is so in every later one.
- `findMethod?`, `arity_eq`, `text_eq` and the others: what a program can find out about a value.
- `UnaryOp.apply_renamed`, `BinaryOp.apply_renamed`: what operators make of them.
-/

namespace Lox

/-! ## Worlds -/

/-- The namings of the scopes in memory, by their numbers. -/
abbrev World := List Naming

namespace World

variable {w w' : World}

/-- The naming of a scope. -/
def naming (w : World) (i : Nat) : Naming := w.getD i .same

/-- The namings of the scopes that a piece of program sees. -/
def along (w : World) (chain : Chain) : List Naming := chain.map w.naming

/-- All scopes of a chain are in memory. -/
def Bounds (w : World) (chain : Chain) : Prop := ∀ i ∈ chain, i < w.length

theorem naming_mono (h : w <+: w') {i : Nat} (hi : i < w.length) : w'.naming i = w.naming i := by
  obtain ⟨v, rfl⟩ := h
  unfold World.naming
  rw [List.getD_eq_getElem?_getD, List.getD_eq_getElem?_getD, List.getElem?_append_left hi]

/-- A new scope has its own naming. -/
theorem naming_new (w : World) (f : Naming) : (w ++ [f]).naming w.length = f := by
  unfold World.naming
  rw [List.getD_eq_getElem?_getD, List.getElem?_concat_length]
  rfl

theorem Bounds.mono {chain : Chain} (h : w.Bounds chain) (hle : w <+: w') : w'.Bounds chain :=
  fun i hi => Nat.lt_of_lt_of_le (h i hi) hle.length_le

theorem along_mono {chain : Chain} (h : w.Bounds chain) (hle : w <+: w') :
    w'.along chain = w.along chain :=
  List.map_congr_left fun i hi => naming_mono hle (h i hi)

/-- The namings around a function; around a method there is the scope of its receiver. -/
def around (w : World) (isMethod : Bool) (chain : Chain) : List Naming :=
  if isMethod then .same :: w.along chain else w.along chain

end World

/-! ## The values of the two runs -/

/-- The closures of the two runs: the same function under other names. -/
inductive Closure.Renamed (w : World) (isMethod : Bool) : Closure → Closure → Prop
  | mk (plan : Plan) (f : FunctionDecl) (chain : Chain) (isInitializer : Bool)
      (hbounds : w.Bounds chain) (hsuits : plan.Suits fun way => f.scopeAt? way) :
      Renamed w isMethod ⟨f, chain, isInitializer⟩
        ⟨f.rename plan (w.around isMethod chain), chain, isInitializer⟩

/-- The methods of the two runs. -/
abbrev RenamedMethods (w : World) : List (String × Closure) → List (String × Closure) → Prop :=
  List.Forall₂ (Table.RenamedBinding .same (Closure.Renamed w true))

/-- The classes of the two runs. -/
inductive Class.Renamed (w : World) : Class → Class → Prop
  | base {id : Nat} {name : String} {methods methods' : List (String × Closure)}
      (hmethods : RenamedMethods w methods methods') :
      Renamed w ⟨id, name, none, methods⟩ ⟨id, name, none, methods'⟩
  | derived {id : Nat} {name : String} {c c' : Class} {methods methods' : List (String × Closure)}
      (hsuper : Renamed w c c') (hmethods : RenamedMethods w methods methods') :
      Renamed w ⟨id, name, some c, methods⟩ ⟨id, name, some c', methods'⟩

/-- The instances of the two runs. -/
inductive Instance.Renamed (w : World) : Instance → Instance → Prop
  | mk (id : Nat) {c c' : Class} (hclass : c.Renamed w c') : Renamed w ⟨id, c⟩ ⟨id, c'⟩

/-- The values of the two runs. -/
inductive Value.Renamed (w : World) : Value → Value → Prop
  | nil : Renamed w .nil .nil
  | bool (b : Bool) : Renamed w (.bool b) (.bool b)
  | number (x : Float) : Renamed w (.number x) (.number x)
  | string (s : String) : Renamed w (.string s) (.string s)
  | function (id : Nat) {closure closure' : Closure} (hclosure : closure.Renamed w false closure') :
      Renamed w (.function id closure) (.function id closure')
  | class {c c' : Class} (hclass : c.Renamed w c') : Renamed w (.class c) (.class c')
  | method (id : Nat) {closure closure' : Closure} {i i' : Instance}
      (hclosure : closure.Renamed w true closure') (hreceiver : i.Renamed w i') :
      Renamed w (.method id closure i) (.method id closure' i')
  | native (n : Native) : Renamed w (.native n) (.native n)
  | instance {i i' : Instance} (hinstance : i.Renamed w i') :
      Renamed w (.instance i) (.instance i')

/-- The callables of the two runs. -/
inductive Callable.Renamed (w : World) : Callable → Callable → Prop
  | function {closure closure' : Closure} (hclosure : closure.Renamed w false closure') :
      Renamed w (.function closure) (.function closure')
  | method {closure closure' : Closure} {i i' : Instance}
      (hclosure : closure.Renamed w true closure') (hreceiver : i.Renamed w i') :
      Renamed w (.method closure i) (.method closure' i')
  | class {c c' : Class} (hclass : c.Renamed w c') : Renamed w (.class c) (.class c')
  | native (n : Native) : Renamed w (.native n) (.native n)

/-- The ends of statements of the two runs. -/
inductive Flow.Renamed (w : World) : Flow → Flow → Prop
  | normal : Renamed w .normal .normal
  | break : Renamed w .break .break
  | continue : Renamed w .continue .continue
  | return {v v' : Value} (hv : v.Renamed w v') : Renamed w (.return v) (.return v')

/-! ## They are alike -/

@[simp] theorem FunctionDecl.name_rename (plan : Plan) (fs : List Naming) (f : FunctionDecl) :
    (f.rename plan fs).name = f.name := by
  obtain ⟨name, params, body, span⟩ := f
  rfl

theorem FunctionDecl.length_params_rename (plan : Plan) (fs : List Naming) (f : FunctionDecl) :
    (f.rename plan fs).params.length = f.params.length := by
  obtain ⟨name, params, body, span⟩ := f
  exact List.length_map _

section Like

variable {w : World}

/-- Without a call, a program cannot tell them apart. -/
theorem Closure.Renamed.like {isMethod : Bool} {c c' : Closure} (h : c.Renamed w isMethod c') :
    c.Like (Closure.Renamed w) isMethod c' := by
  have hrelated := h
  cases h with
  | mk plan f => exact ⟨f.name_rename plan _, f.length_params_rename plan _, rfl, hrelated⟩

theorem Closure.like_renamed (isMethod : Bool) :
    Closure.Like (Closure.Renamed w) isMethod = Closure.Renamed w isMethod := by
  funext c c'
  exact propext ⟨fun h => h.related, fun h => h.like⟩

theorem likeMethods_renamed : LikeMethods (Closure.Renamed w) = RenamedMethods w := by
  unfold LikeMethods RenamedMethods
  rw [Closure.like_renamed]

theorem Class.like_renamed : Class.Like (Closure.Renamed w) = Class.Renamed w := by
  funext c c'
  refine propext ⟨fun h => ?_, fun h => ?_⟩
  · induction h with
    | base hmethods => exact .base (likeMethods_renamed ▸ hmethods)
    | derived _ hmethods ih => exact .derived ih (likeMethods_renamed ▸ hmethods)
  · induction h with
    | base hmethods => exact .base (likeMethods_renamed ▸ hmethods)
    | derived _ hmethods ih => exact .derived ih (likeMethods_renamed ▸ hmethods)

theorem Instance.like_renamed : Instance.Like (Closure.Renamed w) = Instance.Renamed w := by
  funext i i'
  refine propext ⟨fun h => ?_, fun h => ?_⟩
  · cases h with
    | mk id hclass => exact .mk id (Class.like_renamed ▸ hclass)
  · cases h with
    | mk id hclass => exact .mk id (Class.like_renamed ▸ hclass)

theorem Value.like_renamed : Value.Like (Closure.Renamed w) = Value.Renamed w := by
  funext v v'
  refine propext ⟨fun h => ?_, fun h => ?_⟩
  · cases h with
    | nil => exact .nil
    | bool b => exact .bool b
    | number x => exact .number x
    | string s => exact .string s
    | function id hclosure => exact .function id hclosure.related
    | «class» hclass => exact .class (Class.like_renamed ▸ hclass)
    | method id hclosure hreceiver =>
        exact .method id hclosure.related (Instance.like_renamed ▸ hreceiver)
    | native n => exact .native n
    | «instance» hinstance => exact .instance (Instance.like_renamed ▸ hinstance)
  · cases h with
    | nil => exact .nil
    | bool b => exact .bool b
    | number x => exact .number x
    | string s => exact .string s
    | function id hclosure => exact .function id hclosure.like
    | «class» hclass => exact .class (Class.like_renamed ▸ hclass)
    | method id hclosure hreceiver =>
        exact .method id hclosure.like (Instance.like_renamed ▸ hreceiver)
    | native n => exact .native n
    | «instance» hinstance => exact .instance (Instance.like_renamed ▸ hinstance)

theorem Callable.like_renamed : Callable.Like (Closure.Renamed w) = Callable.Renamed w := by
  funext f f'
  refine propext ⟨fun h => ?_, fun h => ?_⟩
  · cases h with
    | function hclosure => exact .function hclosure.related
    | method hclosure hreceiver =>
        exact .method hclosure.related (Instance.like_renamed ▸ hreceiver)
    | «class» hclass => exact .class (Class.like_renamed ▸ hclass)
    | native n => exact .native n
  · cases h with
    | function hclosure => exact .function hclosure.like
    | method hclosure hreceiver => exact .method hclosure.like (Instance.like_renamed ▸ hreceiver)
    | «class» hclass => exact .class (Class.like_renamed ▸ hclass)
    | native n => exact .native n

end Like

/-! ## Later worlds -/

section Mono

variable {w w' : World} (hle : w <+: w')

include hle

theorem Closure.Renamed.mono {isMethod : Bool} {c c' : Closure} (h : c.Renamed w isMethod c') :
    c.Renamed w' isMethod c' := by
  cases h with
  | mk plan f chain isInitializer hbounds hsuits =>
      have haround : w'.around isMethod chain = w.around isMethod chain := by
        unfold World.around
        rw [World.along_mono hbounds hle]
      rw [← haround]
      exact .mk plan f chain isInitializer (hbounds.mono hle) hsuits

theorem Class.Renamed.mono {c c' : Class} (h : c.Renamed w c') : c.Renamed w' c' := by
  rw [← Class.like_renamed] at h ⊢
  exact h.mono fun hclosure => hclosure.mono hle

theorem Instance.Renamed.mono {i i' : Instance} (h : i.Renamed w i') : i.Renamed w' i' := by
  rw [← Instance.like_renamed] at h ⊢
  exact h.mono fun hclosure => hclosure.mono hle

theorem Value.Renamed.mono {v v' : Value} (h : v.Renamed w v') : v.Renamed w' v' := by
  rw [← Value.like_renamed] at h ⊢
  exact h.mono fun hclosure => hclosure.mono hle

theorem renamedValues_mono {vs vs' : List Value} (h : List.Forall₂ (Value.Renamed w) vs vs') :
    List.Forall₂ (Value.Renamed w') vs vs' :=
  List.Forall₂.imp (fun _ _ hv => hv.mono hle) h

end Mono

/-! ## What a program can find out about a value -/

section Observations

variable {w : World}

/-- Both classes find the same method, or none. -/
theorem Class.Renamed.findMethod? {c c' : Class} (h : c.Renamed w c') (name : String) :
    Option.Rel (Closure.Renamed w true) (c.findMethod? name) (c'.findMethod? name) := by
  rw [← Class.like_renamed] at h
  rw [← Closure.like_renamed]
  exact h.findMethod? name

theorem Value.Renamed.callable? {v v' : Value} (h : v.Renamed w v') :
    Option.Rel (Callable.Renamed w) v.callable? v'.callable? := by
  rw [← Value.like_renamed] at h
  rw [← Callable.like_renamed]
  exact h.callable?

theorem Callable.Renamed.arity_eq {c c' : Callable} (h : c.Renamed w c') : c'.arity = c.arity := by
  rw [← Callable.like_renamed] at h
  exact h.arity_eq

namespace Value.Renamed

variable {v v' : Value}

theorem isTruthy_eq (h : v.Renamed w v') : v'.isTruthy = v.isTruthy := by
  rw [← Value.like_renamed] at h
  exact h.isTruthy_eq

theorem text_eq (h : v.Renamed w v') : v'.text = v.text := by
  rw [← Value.like_renamed] at h
  exact h.text_eq

theorem ofLiteral (l : Literal) : (Value.ofLiteral l).Renamed w (.ofLiteral l) := by
  rw [← Value.like_renamed]
  exact .ofLiteral l

end Value.Renamed

/-! ## Operators and arguments -/

variable {v v' u u' : Value}

theorem UnaryOp.apply_renamed (op : UnaryOp) (h : v.Renamed w v') :
    RenamedResult (Value.Renamed w) (op.apply v) (op.apply v') := by
  rw [← Value.like_renamed] at h ⊢
  exact op.apply_like h

theorem BinaryOp.apply_renamed (op : BinaryOp) (h : v.Renamed w v') (h' : u.Renamed w u') :
    RenamedResult (Value.Renamed w) (op.apply v u) (op.apply v' u') := by
  rw [← Value.like_renamed] at h h' ⊢
  exact op.apply_like h h'

theorem LogicalOp.decides_renamed (op : LogicalOp) (h : v.Renamed w v') :
    op.decides v' = op.decides v := by
  rw [← Value.like_renamed] at h
  exact op.decides_like h

theorem headD_renamed {args args' : List Value} (h : List.Forall₂ (Value.Renamed w) args args') :
    (args.headD .nil).Renamed w (args'.headD .nil) := by
  rw [← Value.like_renamed] at h ⊢
  exact LikeValues.headD h

theorem tail_renamed {args args' : List Value} (h : List.Forall₂ (Value.Renamed w) args args') :
    List.Forall₂ (Value.Renamed w) (args.drop 1) (args'.drop 1) := by
  rw [← Value.like_renamed] at h ⊢
  exact LikeValues.tail h

end Observations

end Lox
