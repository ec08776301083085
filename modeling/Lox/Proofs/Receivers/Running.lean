import Lox.Proofs.Receivers.Keeping
import Lox.Proofs.Evaluation.Steps

/-!
# The evaluator keeps methods where they belong

Receivers come into scopes only by calls of methods, and superclasses only by declarations of
classes. A declaration of a class puts the superclass in front of the chain of its methods, and a call
of a method puts the receiver right in front of that chain; the method belongs to the receiver, so the
superclass is one of the classes of the receiver. Nothing else comes between the two.

By induction on the bound on the recursion, every call of the evaluator keeps the memory sound.

## Contents
- `SoundCall`, `Keeps.bodyChain`: where receivers come into scopes.
- `Keeps.declareClass`: where superclasses come into scopes.
- `Sustains`, `sustains`: every call of the evaluator.
-/

namespace Lox.Receivers

/-! ## Calls -/

/-- A closure may be called: without a receiver, or with one to which it belongs. -/
def SoundCall (m : Memory) (closure : Closure) : Option Instance → Prop
  | none => SoundClosure m closure
  | some r => SoundClass m r.ofClass ∧ Owns r closure

theorem SoundCall.closure {m : Memory} {closure : Closure} {receiver : Option Instance}
    (h : SoundCall m closure receiver) : SoundClosure m closure := by
  cases receiver with
  | none => exact h
  | some r =>
      obtain ⟨hclass, d, hd, hdefines⟩ := h
      exact ((hclass d hd).methods closure hdefines).1

theorem SoundCall.receiver {m : Memory} {closure : Closure} {receiver : Option Instance}
    (h : SoundCall m closure receiver) : ∀ i ∈ receiver, SoundClass m i.ofClass := by
  rintro i rfl
  exact h.1

/-- A receiver in front of the chain of a method that belongs to it. -/
theorem SoundCall.pushReceiver {m : Memory} {closure : Closure} {r : Instance}
    (h : SoundCall m closure (some r)) :
    Aligned (m.newScope (Table.ofList [("this", .instance r)])).2
      (m.scopes.size :: closure.chain) := by
  have hsettles := Settles.newScope m (Table.ofList [("this", Value.instance r)])
  have haligned := h.closure.aligned.settles hsettles
  obtain ⟨hclass, d, hd, hdefines⟩ := h
  obtain ⟨j, outer, hchain, hj, hsuper⟩ := ((hclass d hd).methods closure hdefines).2
  refine .cons (by rw [Scoping.size_newScope]; exact Nat.lt_succ_self _) ?_ haligned
  intro r' j' outer' c hchain' hthis hc
  cases hchain.symm.trans hchain'
  rw [Scoping.scope_newScope_self] at hthis
  cases hthis
  -- what lies in front of the chain of the method is the superclass of its class
  rw [Scoping.scope_newScope_of_lt _ hj] at hc
  exact Class.mem_ancestry_trans hd (Class.mem_ancestry_superclass ((hsuper c).1 hc))

/-- Parameters have no reserved names. -/
theorem get?_bindParams {params : List Param} (hparams : ∀ p ∈ params, ¬Reserved p.name)
    (args : List Value) {x : String} (hx : Reserved x) :
    (Table.ofList (Eval.bindParams params args)).get? x = none := by
  cases hget : (Table.ofList (Eval.bindParams params args)).get? x with
  | none => rfl
  | some v =>
      have hmem : x ∈ (Eval.bindParams params args).map (·.1) :=
        List.mem_map_of_mem (f := Prod.fst) (Table.mem_of_get?_ofList hget)
      rw [Scoping.map_fst_bindParams] at hmem
      obtain ⟨p, hp, rfl⟩ := List.mem_map.1 hmem
      exact absurd hx (hparams p hp)

theorem SoundValues.bindParams {m : Memory} {args : List Value} (hargs : SoundValues m args)
    (params : List Param) : ∀ e ∈ Eval.bindParams params args, SoundValue m e.2 := by
  induction params generalizing args with
  | nil => exact nofun
  | cons p ps ih =>
      intro e he
      rcases List.mem_cons.1 he with rfl | he
      · cases args with
        | nil => trivial
        | cons v vs => exact hargs v List.mem_cons_self
      · exact ih (fun v hv => hargs v (List.mem_of_mem_drop hv)) e he

section Scopes

variable {m : Machine}

/-- **The scopes of a call.** -/
theorem Keeps.bodyChain (hm : SoundMemory m.memory) {closure : Closure} {args : List Value}
    {receiver : Option Instance} (hcall : SoundCall m.memory closure receiver)
    (hargs : SoundValues m.memory args) :
    Keeps (Eval.bodyChain closure args receiver) m fun memory chain =>
      Aligned memory chain ∧ Plain memory chain := by
  have hparams := FunctionDecl.params_not_reserved hcall.closure.ordinary
  have hfree {x : String} (hx : Reserved x) := get?_bindParams hparams args hx
  -- the last scope is made the same way for functions and for methods
  have hbody {m' : Machine} {outer : Chain} (hleads : Leads m m')
      (houter : Aligned m'.memory outer) :
      Keeps (Eval.enter (Table.ofList (Eval.bindParams closure.declaration.params args)) outer) m'
        fun memory chain => Aligned memory chain ∧ Plain memory chain := by
    have hentries := (hargs.settles hleads.settles).bindParams closure.declaration.params
    refine .of_ok rfl ⟨Settles.newScope _ _, hleads.sound.newScope hentries, rfl⟩
      ⟨houter.push ?_, Plain.push _ _ fun x hx => hfree hx⟩
    intro r
    rw [hfree (.inl rfl)]
    exact nofun
  cases receiver with
  | none => exact hbody (.same hm rfl rfl) hcall.aligned
  | some r =>
      have hentered : Keeps (Eval.enter (Table.ofList [("this", .instance r)]) closure.chain) m
          fun memory chain => Aligned memory chain := by
        refine .of_ok rfl ⟨Settles.newScope _ _, hm.newScope ?_, rfl⟩ hcall.pushReceiver
        intro e he
        cases List.mem_singleton.1 he
        exact hcall.1
      exact .bind hentered fun outer m' _ hleads houter => hbody hleads houter

/-! ## Classes -/

theorem Keeps.superclassOf (hm : SoundMemory m.memory) (superclass : Option NameUse) :
    Keeps (Eval.superclassOf superclass) m fun memory c => ∀ d ∈ c, SoundClass memory d := by
  cases superclass with
  | none => exact .pure hm nofun
  | some use =>
      refine .bind (.lookUp hm use.name use.depth use.span.start) ?_
      intro v m' _ hleads hv
      cases v with
      | «class» c =>
          refine .pure hleads.sound fun d hd => ?_
          cases hd
          exact hv
      | nil | bool | number | string | function | method | native | «instance» =>
          exact .raiseAt hleads.sound use.span.start .superclassNotClass

/-- A new scope with a superclass in front of a chain. -/
theorem Holds.push (m : Memory) (chain : Chain) (d : Class) :
    Holds (m.newScope (Table.ofList [("super", .class d)])).2 (m.scopes.size :: chain) (some d) := by
  refine ⟨_, _, rfl, by rw [Scoping.size_newScope]; exact Nat.lt_succ_self _, fun c => ?_⟩
  have hget : (Table.ofList [("super", Value.class d)]).get? "super" = some (.class d) := rfl
  rw [Scoping.scope_newScope_self, hget, Option.some.injEq, Option.some.injEq, Value.class.injEq]

/-- The scopes that the methods of a class see. -/
theorem Keeps.methodChain (hm : SoundMachine m)
    {superclass : Option Class} (hclass : ∀ d ∈ superclass, SoundClass m.memory d) :
    Keeps (Eval.methodChain superclass) m fun memory chain =>
      Aligned memory chain ∧ Holds memory chain superclass := by
  cases superclass with
  | none =>
      obtain ⟨i, outer, hchain, hi, _, hsuper⟩ := hm.plain
      refine .of_ok rfl (.same hm.memory rfl rfl) ⟨hm.aligned, i, outer, hchain, hi, fun c => ?_⟩
      exact iff_of_false (hsuper c) nofun
  | some d =>
      have hthis (r : Instance) :
          (Table.ofList [("super", Value.class d)]).get? "this" ≠ some (.instance r) := nofun
      have hentered : Keeps (Eval.enter (Table.ofList [("super", .class d)]) m.chain) m
          fun memory chain => Aligned memory chain ∧ Holds memory chain (some d) := by
        refine .of_ok rfl ⟨Settles.newScope _ _, hm.memory.newScope ?_, rfl⟩
          ⟨hm.aligned.push hthis, Holds.push _ _ d⟩
        intro e he
        cases List.mem_singleton.1 he
        exact hclass d rfl
      have hchain : Keeps Eval.chain m fun _ _ => True :=
        .of_ok rfl (.same hm.memory rfl rfl) trivial
      refine .bind hchain ?_
      intro chain m' heq _ _
      cases heq
      exact hentered

/-- **A declaration of a class.** Its superclass was there before it, and lies in front of the chain of
its methods. -/
theorem Keeps.declareClass (hm : SoundMachine m) {name : String}
    (hname : ¬Reserved name) (superclass : Option NameUse) {methods : List FunctionDecl}
    (hmethods : ∀ f ∈ methods, f.Ordinary) :
    Keeps (Eval.declareClass name superclass methods) m fun _ _ => True := by
  unfold Eval.declareClass
  refine .bind (.superclassOf hm.memory superclass) ?_
  intro c m₁ _ hleads₁ hc
  have hm₁ := hm.after hleads₁
  refine .bind (.define hm₁.memory hname (v := .nil) trivial) ?_
  intro _ m₂ _ hleads₂ _
  have hc₂ : ∀ d ∈ c, SoundClass m₂.memory d := fun d hd => (hc d hd).settles hleads₂.settles
  refine .bind (.methodChain (hm₁.after hleads₂) hc₂) ?_
  intro seen m₃ _ hleads₃ hseen
  obtain ⟨haligned, hholds⟩ := hseen
  have hnew : Keeps (Eval.take (·.newId)) m₃ fun memory id =>
      m₃.memory.nextId = id ∧ id < memory.nextId :=
    .of_ok rfl ⟨Settles.newId _, hleads₃.sound.newId, rfl⟩ ⟨rfl, Nat.lt_succ_self _⟩
  refine .bind hnew ?_
  rintro _ m₄ _ hleads₄ ⟨rfl, hid⟩
  have hc₃ : ∀ d ∈ c, SoundClass m₃.memory d := fun d hd => (hc₂ d hd).settles hleads₃.settles
  refine .define hleads₄.sound hname ?_
  intro d hd
  rcases Class.mem_ancestry.1 hd with rfl | ⟨b, hb, hd⟩
  · refine ⟨fun b hb => (hc₃ b hb b b.mem_ancestry_self).id_lt, hid, ?_⟩
    rintro closure ⟨x, hmem⟩
    obtain ⟨f, hf, heq⟩ := List.mem_map.1 (Table.mem_of_mem_ofList hmem)
    cases heq
    exact ⟨⟨hmethods f hf, haligned.settles hleads₄.settles⟩, hholds.settles hleads₄.settles⟩
  · exact (hc₃ b hb).settles hleads₄.settles d hd

end Scopes

/-! ## Every call of the evaluator -/

/-- What a statement hands on when it ends. -/
def SoundFlow (m : Memory) : Flow → Prop
  | .normal | .break | .continue => True
  | .return v => SoundValue m v

/-- What a callable is made of is sound. -/
def SoundCallable (m : Memory) : Callable → Prop
  | .function closure => SoundCall m closure none
  | .method closure receiver => SoundCall m closure (some receiver)
  | .class c => SoundClass m c
  | .native _ => True

theorem SoundValue.callable {m : Memory} {v : Value} {c : Callable} (hv : SoundValue m v)
    (hc : v.callable? = some c) : SoundCallable m c := by
  cases v with
  | function | «class» | method | native =>
      cases hc
      exact hv
  | nil | bool | number | string | «instance» => exact nomatch hc

/-- Every call of the evaluator, with a given bound on the recursion, keeps the memory sound. -/
structure Sustains (setting : Setting) (n : Nat) : Prop where
  evaluate : ∀ e m, e.Ordinary → SoundMachine m → Keeps (evaluate setting n e) m SoundValue
  evaluateAll : ∀ es m, Expr.OrdinaryAll es → SoundMachine m →
    Keeps (evaluateAll setting n es) m SoundValues
  callValue : ∀ callee args location m, SoundMemory m.memory → SoundValue m.memory callee →
    SoundValues m.memory args → Keeps (callValue setting n callee args location) m SoundValue
  invoke : ∀ callee args location m, SoundMemory m.memory → SoundCallable m.memory callee →
    SoundValues m.memory args → Keeps (invoke setting n callee args location) m SoundValue
  callFunction : ∀ closure args receiver m, SoundMemory m.memory →
    SoundCall m.memory closure receiver → SoundValues m.memory args →
    Keeps (callFunction setting n closure args receiver) m SoundValue
  instantiate : ∀ c args m, SoundMemory m.memory → SoundClass m.memory c →
    SoundValues m.memory args → Keeps (instantiate setting n c args) m SoundValue
  execute : ∀ s m, s.Ordinary → SoundMachine m → Keeps (execute setting n s) m SoundFlow
  executeLoop : ∀ c b i m, c.Ordinary → b.Ordinary → Expr.OrdinaryOption i → SoundMachine m →
    Keeps (executeLoop setting n c b i) m SoundFlow
  executeDecl : ∀ d m, d.Ordinary → SoundMachine m → Keeps (executeDecl setting n d) m SoundFlow
  executeAll : ∀ ds m, Decl.OrdinaryAll ds → SoundMachine m →
    Keeps (executeAll setting n ds) m SoundFlow

section Step

variable {setting : Setting} {n : Nat} {m : Machine} (inside : Sustains setting n)

include inside

/-- **An expression.** -/
theorem Sustains.evaluate_step {e : Expr} (he : e.Ordinary) (hm : SoundMachine m) :
    Keeps (Lox.evaluate setting (n + 1) e) m SoundValue := by
  -- every part leads to a sound machine, in which the values found before it are sound still
  cases e with
  | literal value span => exact .pure hm.memory (by cases value <;> trivial)
  | grouping inner span => exact inside.evaluate inner m he hm
  | unary op operand span =>
      refine .bind (inside.evaluate operand m he hm) ?_
      intro v m₁ _ hleads _
      exact .liftAt hleads.sound fun w hw =>
        UnaryOp.of_apply (fun _ => trivial) (fun _ => trivial) hw
  | binary op left right span =>
      refine .bind (inside.evaluate left m he.1 hm) ?_
      intro v m₁ _ hleads _
      refine .bind (inside.evaluate right m₁ he.2 (hm.after hleads)) ?_
      intro w m₂ _ hleads' _
      exact .liftAt hleads'.sound fun u hu =>
        BinaryOp.of_apply (fun _ => trivial) (fun _ => trivial) (fun _ => trivial) hu
  | logical op left right span =>
      refine .bind (inside.evaluate left m he.1 hm) ?_
      intro v m₁ _ hleads hv
      split
      · exact .pure hleads.sound hv
      · exact inside.evaluate right m₁ he.2 (hm.after hleads)
  | «variable» use => exact .lookUp hm.memory _ _ _
  | assign name depth value span =>
      refine .bind (inside.evaluate value m he.2 hm) ?_
      intro v m₁ _ hleads hv
      refine .bind (.assign hleads.sound he.1 depth hv span.start) ?_
      intro _ m₂ _ hleads' _
      exact .pure hleads'.sound (hv.settles hleads'.settles)
  | call callee args span =>
      refine .bind (inside.evaluate callee m he.1 hm) ?_
      intro f m₁ _ hleads hf
      refine .bind (inside.evaluateAll args m₁ he.2 (hm.after hleads)) ?_
      intro vs m₂ _ hleads' hvs
      exact inside.callValue f vs span.start m₂ hleads'.sound (hf.settles hleads'.settles) hvs
  | get object name span =>
      refine .bind (inside.evaluate object m he hm) ?_
      intro o m₁ _ hleads ho
      exact .property hleads.sound ho name span.start
  | set object name value span =>
      refine .bind (inside.evaluate object m he.1 hm) ?_
      intro o m₁ _ hleads ho
      cases o with
      | «instance» i =>
          refine .bind (x := Eval.fieldOwner (.instance i) span.start) (Q := fun _ _ => True)
            (.pure hleads.sound trivial) ?_
          intro i m₂ _ hleads' _
          refine .bind (inside.evaluate value m₂ he.2 ((hm.after hleads).after hleads')) ?_
          intro v m₃ _ hleads'' hv
          refine .bind (.setField hleads''.sound i name hv) ?_
          intro _ m₄ _ hset _
          exact .pure hset.sound (hv.settles hset.settles)
      | nil | bool | number | string | function | «class» | method | native =>
          exact .raiseAt hleads.sound span.start .fieldOfNonInstance
  | this depth span => exact .lookUp hm.memory _ _ _
  | super depth method span => exact .superMethod hm depth method span.start

theorem Sustains.evaluateAll_step {es : List Expr} (hes : Expr.OrdinaryAll es)
    (hm : SoundMachine m) : Keeps (Lox.evaluateAll setting (n + 1) es) m SoundValues := by
  cases es with
  | nil => exact .pure hm.memory nofun
  | cons e es =>
      refine .bind (inside.evaluate e m hes.1 hm) ?_
      intro v m₁ _ hleads hv
      refine .bind (inside.evaluateAll es m₁ hes.2 (hm.after hleads)) ?_
      intro vs m₂ _ hleads' hvs
      refine .pure hleads'.sound fun w hw => ?_
      rcases List.mem_cons.1 hw with rfl | hw
      · exact hv.settles hleads'.settles
      · exact hvs w hw

theorem Sustains.callValue_step {callee : Value} {args : List Value} (location : Location)
    (hm : SoundMemory m.memory) (hcallee : SoundValue m.memory callee)
    (hargs : SoundValues m.memory args) :
    Keeps (Lox.callValue setting (n + 1) callee args location) m SoundValue := by
  unfold Lox.callValue
  cases hc : callee.callable? with
  | none => exact .raiseAt hm location .notCallable
  | some c =>
      simp only
      split
      · exact .inCall hm (inside.invoke c args location _ hm (hcallee.callable hc) hargs)
      · exact .raiseAt hm location _

theorem Sustains.invoke_step (hhonest : setting.host.Honest) (hbinds : setting.host.BindsOwn)
    {callee : Callable} {args : List Value} (location : Location)
    (hm : SoundMemory m.memory) (hcallee : SoundCallable m.memory callee)
    (hargs : SoundValues m.memory args) :
    Keeps (Lox.invoke setting (n + 1) callee args location) m SoundValue := by
  cases callee with
  | function closure => exact inside.callFunction closure args none m hm hcallee hargs
  | method closure receiver =>
      exact inside.callFunction closure args (some receiver) m hm hcallee hargs
  | «class» c => exact inside.instantiate c args m hm hcallee hargs
  | native native => exact .callNative hhonest hbinds hm hargs native location

/-- **A call of a function.** -/
theorem Sustains.callFunction_step {closure : Closure} {args : List Value}
    {receiver : Option Instance} (hm : SoundMemory m.memory)
    (hcall : SoundCall m.memory closure receiver) (hargs : SoundValues m.memory args) :
    Keeps (Lox.callFunction setting (n + 1) closure args receiver) m SoundValue := by
  refine .bind (.bodyChain hm hcall hargs) ?_
  rintro seen m₁ _ hleads ⟨haligned, hplain⟩
  have hbody := FunctionDecl.body_ordinary hcall.closure.ordinary
  refine .bind (.within (inside.executeAll _ { m₁ with chain := seen } hbody
    ⟨hleads.sound, haligned, hplain⟩)) ?_
  intro flow m₂ _ hleads' hflow
  have hreceiver (i : Instance) (hi : i ∈ receiver) : SoundClass m₂.memory i.ofClass :=
    ((hcall.receiver i hi).settles hleads.settles).settles hleads'.settles
  unfold Eval.callResult
  split
  · cases receiver with
    | none => exact .pure hleads'.sound trivial
    | some i => exact .pure hleads'.sound (hreceiver i rfl)
  · cases flow with
    | normal => exact .pure hleads'.sound trivial
    | «return» v => exact .pure hleads'.sound hflow
    | «break» | «continue» => exact .raise hleads'.sound _

theorem Sustains.instantiate_step {c : Class} {args : List Value} (hm : SoundMemory m.memory)
    (hc : SoundClass m.memory c) (hargs : SoundValues m.memory args) :
    Keeps (Lox.instantiate setting (n + 1) c args) m SoundValue := by
  have hsettles : Settles m.memory (m.memory.newInstance c).2 :=
    Settles.of_scopes_eq rfl (Nat.le_refl _)
  have hmade : Keeps (Eval.take (·.newInstance c)) m fun _ i => i.ofClass = c :=
    .of_ok rfl ⟨hsettles, hm.newInstance c, rfl⟩ rfl
  refine .bind hmade ?_
  rintro i m₁ _ hleads rfl
  have hc₁ := hc.settles hleads.settles
  split
  · rename_i closure hfind
    refine .bind (inside.callFunction closure args (some i) m₁ hleads.sound
      ⟨hc₁, Class.exists_of_findMethod? hfind⟩ (hargs.settles hleads.settles)) ?_
    intro _ m₂ _ hleads' _
    exact .pure hleads'.sound (hc₁.settles hleads'.settles)
  · exact .pure hleads.sound hc₁

/-- **A statement.** -/
theorem Sustains.execute_step {s : Stmt} (hs : s.Ordinary) (hm : SoundMachine m) :
    Keeps (Lox.execute setting (n + 1) s) m SoundFlow := by
  cases s with
  | expression value span =>
      refine .bind (inside.evaluate value m hs hm) ?_
      intro _ m₁ _ hleads _
      exact .pure hleads.sound trivial
  | print value span =>
      refine .bind (inside.evaluate value m hs hm) ?_
      intro v m₁ _ hleads _
      refine .bind (.print hleads.sound _ v.text) ?_
      intro _ m₂ _ hleads' _
      exact .pure hleads'.sound trivial
  | block body span =>
      have hentries : ∀ e ∈ ([] : List (String × Value)), SoundValue m.memory e.2 := nofun
      have hentered : Keeps (Eval.chain >>= fun outer => Eval.enter Table.empty outer) m
          fun memory chain => Aligned memory chain ∧ Plain memory chain :=
        .of_ok rfl ⟨Settles.newScope _ _, hm.memory.newScope hentries, rfl⟩
          ⟨hm.aligned.push nofun, Plain.push _ _ fun _ _ => rfl⟩
      show Keeps ((Eval.chain >>= fun outer => Eval.enter Table.empty outer) >>= fun inner =>
        Eval.within inner (Lox.executeAll setting n body)) m SoundFlow
      refine .bind hentered ?_
      rintro seen m₁ _ hleads ⟨haligned, hplain⟩
      exact .within (inside.executeAll body _ hs ⟨hleads.sound, haligned, hplain⟩)
  | ifThenElse condition thenBranch elseBranch span =>
      have hordinary : condition.Ordinary ∧ thenBranch.Ordinary := by
        cases elseBranch with
        | none => exact hs
        | some e => exact ⟨hs.1, hs.2.1⟩
      refine .bind (inside.evaluate condition m hordinary.1 hm) ?_
      intro v m₁ _ hleads _
      split
      · exact inside.execute thenBranch m₁ hordinary.2 (hm.after hleads)
      · cases elseBranch with
        | none => exact .pure hleads.sound trivial
        | some e => exact inside.execute e m₁ hs.2.2 (hm.after hleads)
  | whileLoop condition body increment span =>
      exact inside.executeLoop condition body increment m hs.1 hs.2.1 hs.2.2 hm
  | «break» span | «continue» span => exact .pure hm.memory trivial
  | «return» value span =>
      cases value with
      | none => exact .pure hm.memory trivial
      | some e =>
          refine .bind (inside.evaluate e m hs hm) ?_
          intro v m₁ _ hleads hv
          exact .pure hleads.sound hv

/-- **A round of a loop and those that follow.** -/
theorem Sustains.executeLoop_step {c : Expr} {b : Stmt} {i : Option Expr} (hc : c.Ordinary)
    (hb : b.Ordinary) (hi : Expr.OrdinaryOption i) (hm : SoundMachine m) :
    Keeps (Lox.executeLoop setting (n + 1) c b i) m SoundFlow := by
  refine .bind (inside.evaluate c m hc hm) ?_
  intro v m₁ _ hleads _
  have hm₁ := hm.after hleads
  split
  · refine .bind (inside.execute b m₁ hb hm₁) ?_
    intro flow m₂ _ hleads' hflow
    have hm₂ := hm₁.after hleads'
    cases flow with
    | normal | «continue» =>
        cases i with
        | none => exact inside.executeLoop c b none m₂ hc hb hi hm₂
        | some e =>
            refine .bind (inside.evaluate e m₂ hi hm₂) ?_
            intro _ m₃ _ hleads'' _
            exact inside.executeLoop c b (some e) m₃ hc hb hi (hm₂.after hleads'')
    | «break» => exact .pure hleads'.sound trivial
    | «return» v => exact .pure hleads'.sound hflow
  · exact .pure hleads.sound trivial

/-- **A declaration.** -/
theorem Sustains.executeDecl_step {d : Decl} (hd : d.Ordinary) (hm : SoundMachine m) :
    Keeps (Lox.executeDecl setting (n + 1) d) m SoundFlow := by
  cases d with
  | var name initial span =>
      cases initial with
      | none =>
          refine .bind (.define hm.memory hd.1 (v := .nil) trivial) ?_
          intro _ m₁ _ hleads _
          exact .pure hleads.sound trivial
      | some e =>
          refine .bind (inside.evaluate e m hd.2 hm) ?_
          intro v m₁ _ hleads hv
          refine .bind (.define hleads.sound hd.1 hv) ?_
          intro _ m₂ _ hleads' _
          exact .pure hleads'.sound trivial
  | function decl =>
      have hnew : Keeps (Eval.take (·.newId)) m fun _ _ => True :=
        .of_ok rfl ⟨Settles.newId _, hm.memory.newId, rfl⟩ trivial
      refine .bind hnew ?_
      intro id m₁ _ hleads _
      have hm₁ := hm.after hleads
      have hchain : Keeps Eval.chain m₁ fun _ chain => Aligned m₁.memory chain :=
        .of_ok rfl (.same hm₁.memory rfl rfl) hm₁.aligned
      refine .bind hchain ?_
      intro chain m₂ _ hleads' haligned
      refine .bind (.define hleads'.sound (FunctionDecl.name_not_reserved hd)
        (v := .function id ⟨decl, chain, false⟩) ⟨hd, haligned.settles hleads'.settles⟩) ?_
      intro _ m₃ _ hleads'' _
      exact .pure hleads''.sound trivial
  | «class» name superclass methods span =>
      refine .bind (.declareClass hm hd.1 superclass (FunctionDecl.ordinary_of_mem hd.2)) ?_
      intro _ m₁ _ hleads _
      exact .pure hleads.sound trivial
  | stmt s => exact inside.execute s m hd hm

theorem Sustains.executeAll_step {ds : List Decl} (hds : Decl.OrdinaryAll ds)
    (hm : SoundMachine m) : Keeps (Lox.executeAll setting (n + 1) ds) m SoundFlow := by
  cases ds with
  | nil => exact .pure hm.memory trivial
  | cons d ds =>
      refine .bind (inside.executeDecl d m hds.1 hm) ?_
      intro flow m₁ _ hleads hflow
      cases flow with
      | normal => exact inside.executeAll ds m₁ hds.2 (hm.after hleads)
      | «break» | «continue» => exact .pure hleads.sound trivial
      | «return» v => exact .pure hleads.sound hflow

end Step

/-- **Every call of the evaluator keeps the memory sound**, by induction on the bound on the
recursion. -/
theorem sustains {setting : Setting} (hhonest : setting.host.Honest)
    (hbinds : setting.host.BindsOwn) (n : Nat) : Sustains setting n := by
  induction n with
  | zero =>
      exact ⟨fun _ _ _ hm => .outOfFuel hm.memory, fun _ _ _ hm => .outOfFuel hm.memory,
        fun _ _ _ _ hm _ _ => .outOfFuel hm, fun _ _ _ _ hm _ _ => .outOfFuel hm,
        fun _ _ _ _ hm _ _ => .outOfFuel hm, fun _ _ _ hm _ _ => .outOfFuel hm,
        fun _ _ _ hm => .outOfFuel hm.memory, fun _ _ _ _ _ _ _ hm => .outOfFuel hm.memory,
        fun _ _ _ hm => .outOfFuel hm.memory, fun _ _ _ hm => .outOfFuel hm.memory⟩
  | succ n inside =>
      exact ⟨fun _ _ he hm => inside.evaluate_step he hm,
        fun _ _ hes hm => inside.evaluateAll_step hes hm,
        fun _ _ l _ hm hv hvs => inside.callValue_step l hm hv hvs,
        fun _ _ l _ hm hc hvs => inside.invoke_step hhonest hbinds l hm hc hvs,
        fun _ _ _ _ hm hc hvs => inside.callFunction_step hm hc hvs,
        fun _ _ _ hm hc hvs => inside.instantiate_step hm hc hvs,
        fun _ _ hs hm => inside.execute_step hs hm,
        fun _ _ _ _ hc hb hi hm => inside.executeLoop_step hc hb hi hm,
        fun _ _ hd hm => inside.executeDecl_step hd hm,
        fun _ _ hds hm => inside.executeAll_step hds hm⟩

end Lox.Receivers
