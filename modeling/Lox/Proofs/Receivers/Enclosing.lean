import Lox.Proofs.Receivers.Moments

/-!
# The class around a piece of program

A piece of program in a method stands in the declaration of a class, and when it is executed, that
declaration has made a class value. Which one that is does not depend on how the method is reached:
for the body of a method it is the class, among those of the receiver, whose table holds the method;
everything written in that body stands in the same class, the bodies of functions included, even if
these are called long after the method has returned.

The relation `Around` says this moment by moment. Along it, `this` stays an instance of that class,
and `super` stays the superclass of that class.

## Contents
- `Around`, `exists_around`: the class value around the work of a moment.
- `AtHome`, `atHome_of_around`: what lies under `this` and `super` there.
-/

namespace Lox.Receivers

open Scoping

/-- The value of the class that a piece of program stands in. Methods of the same text, declared by
inputs at the top level, are the same closure and may stand in several tables; the class that is meant
is one of those of the receiver, and by `unique_home` there is only one. -/
inductive Around (h : History) : Nat → Moment → Class → Prop
  | part {k p q c} :
      Around h k p c → Part h.session.setting p q → Static q → Around h k q c
  | method {k n o chain args r m seen m' k' maker memory c} :
      Reached h k ⟨n + 1, .function (o.closure chain) args (some r), m⟩ →
      Eval.bodyChain (o.closure chain) args (some r) m = .ok seen m' →
      Reached h k' maker → Makes h.session.setting maker o chain memory →
      o.isMethod = true → Later memory m.memory →
      c ∈ r.ofClass.ancestry → c.Defines (o.closure chain) →
      Around h k ⟨n, o.body, { m' with chain := seen }⟩ c
  | function {k n o chain args m seen m' k' maker memory c} :
      Reached h k ⟨n + 1, .function (o.closure chain) args none, m⟩ →
      Eval.bodyChain (o.closure chain) args none m = .ok seen m' →
      Around h k' maker c → Makes h.session.setting maker o chain memory →
      o.isMethod = false → Later memory m.memory →
      Around h k ⟨n, o.body, { m' with chain := seen }⟩ c

theorem Around.reached {h : History} {k : Nat} {p : Moment} {c : Class} (haround : Around h k p c) :
    Reached h k p := by
  induction haround with
  | part _ hpart _ ih => exact ih.part hpart
  | method hcall hchain hmaker hmakes hmethod hlater _ _ =>
      exact .body hcall hchain hmaker hmakes hmethod.symm hlater
  | function hcall hchain _ hmakes hmethod hlater ih =>
      exact .body hcall hchain ih hmakes hmethod.symm hlater

/-! ## What lies under `this` and `super` -/

/-- In the scopes of a moment `this` is an instance of a class, and `super` is the superclass of that
class, if the moment stands in a class with a superclass. -/
def AtHome (p : Moment) (c : Class) : Prop :=
  ∃ d i rest r, p.distance? "this" = some d ∧ p.machine.chain.ancestor? d = some (i :: rest) ∧
    i < p.machine.memory.scopes.size ∧
    (p.machine.memory.scope i).get? "this" = some (.instance r) ∧ c ∈ r.ofClass.ancestry ∧
    (p.kind = .derived → p.distance? "super" = some (d + 1) ∧
      ∃ j outer b, rest = j :: outer ∧ j < p.machine.memory.scopes.size ∧
        (p.machine.memory.scope j).get? "super" = some (.class b) ∧ c.superclass = some b)

/-- **Moving on.** A moment that sees the scopes of another one, with some more in front and with the
same receivers and superclasses, sees the same class. -/
theorem AtHome.move {p q : Moment} {c : Class} (hp : AtHome p c) (e : Nat)
    (hkind : q.kind = p.kind)
    (hdistance : ∀ x, Reserved x → q.distance? x = (p.distance? x).map (· + e))
    (hchain : ∀ d, q.machine.chain.ancestor? (d + e) = p.machine.chain.ancestor? d)
    (hsize : p.machine.memory.scopes.size ≤ q.machine.memory.scopes.size)
    (hfixed : ∀ i x v, Reserved x → i < p.machine.memory.scopes.size →
      (p.machine.memory.scope i).get? x = some v → (q.machine.memory.scope i).get? x = some v) :
    AtHome q c := by
  obtain ⟨d, i, rest, r, hd, hancestor, hi, hr, hc, hsuper⟩ := hp
  refine ⟨d + e, i, rest, r, ?_, ?_, Nat.lt_of_lt_of_le hi hsize, hfixed i _ _ (.inl rfl) hi hr, hc,
    fun hderived => ?_⟩
  · rw [hdistance _ (.inl rfl), hd]
    rfl
  · rw [hchain, hancestor]
  · obtain ⟨hd', j, outer, b, hrest, hj, hb, hcb⟩ := hsuper (hkind ▸ hderived)
    refine ⟨?_, j, outer, b, hrest, Nat.lt_of_lt_of_le hj hsize, hfixed j _ _ (.inr rfl) hj hb, hcb⟩
    rw [hdistance _ (.inr rfl), hd', Option.map_some, Nat.add_right_comm]

theorem AtHome.inner {p q : Moment} {c : Class} (hp : AtHome p c) (hinner : Inner p q) :
    AtHome q c := by
  cases hinner with
  | along hleads hkind hdistance =>
      refine hp.move 0 hkind (fun x hx => ?_) (fun d => ?_) hleads.settles.size_le ?_
      · rw [hdistance x hx]
        exact Option.map_id'.symm
      · rw [hleads.chain]
        rfl
      · intro i x v hx hi hv
        rw [hleads.settles.settled i x hx hi]
        exact hv
  | block heq hkind hdistance =>
      have hsettles := Settles.newScope p.machine.memory Table.empty
      refine hp.move 1 hkind (fun x _ => hdistance x) (fun d => ?_) ?_ ?_
      · rw [heq]
        rfl
      · rw [heq]
        exact hsettles.size_le
      · intro i x v hx hi hv
        rw [heq]
        exact (hsettles.settled i x hx hi).trans hv

/-- Parameters leave receivers and superclasses one scope further out. -/
theorem distance?_params {params : List Param} (hparams : ∀ p ∈ params, ¬Reserved p.name)
    (outer : Scopes) {x : String} (hx : Reserved x) :
    Scopes.distance? (Param.resolveAll outer.enter params).value x =
      (outer.distance? x).map (· + 1) := by
  rw [Param.resolveAll_value]
  have hfree : (Table.ofList (params.map fun p => (p.name, true))).has x = false := by
    rw [Bool.eq_false_iff]
    intro hhas
    rw [Table.has_ofList, List.map_map] at hhas
    obtain ⟨p, hp, rfl⟩ := List.mem_map.1 hhas
    exact hparams p hp hx
  show (if (Table.ofList _).has x then _ else _) = _
  rw [hfree]
  rfl

section Reached

variable {h : History} {k : Nat} {p q : Moment} {c : Class}
  (hhonest : h.session.setting.host.Honest) (hbinds : h.session.setting.host.BindsOwn)
  (hready : Ready h h.session.machine) (hsound : SoundMachine h.session.machine)

include hhonest hbinds hready hsound

/-- The body of a function that is no method stands in the class that its declaration stands in. -/
theorem atHome_function {o : Scoping.Origin} {chain : Chain} {args : List Value} {m m' : Machine}
    {seen : Chain} {n k' : Nat} {maker : Moment} {memory : Memory}
    (hchain : Eval.bodyChain (o.closure chain) args none m = .ok seen m')
    (hmaker : Reached h k' maker) (hmakes : Makes h.session.setting maker o chain memory)
    (hmethod : o.isMethod = false) (hlater : Later memory m.memory) (hhome : AtHome maker c) :
    AtHome ⟨n, o.body, { m' with chain := seen }⟩ c := by
  have hvalid := valid_of_reached hhonest hready hmaker
  have hwork := soundWork_of_reached hhonest hbinds hready hsound hmaker
  cases hmakes with
  | method hf heq => exact nomatch (isMethod_methodKind _).symm.trans hmethod
  | @function _ a s d _ _ heq =>
      cases hchain
      have hordinary : d.Ordinary := hvalid.2.2.1
      have hleads := leads_executeDecl hhonest hbinds hvalid.2.2.1 hwork heq
      refine hhome.move 1 rfl (fun x hx => ?_) (fun d => rfl) ?_ ?_
      · have hparams := FunctionDecl.params_not_reserved hordinary
        have hname := FunctionDecl.name_not_reserved hordinary
        exact (distance?_params hparams (s.define d.name) hx).trans
          (congrArg _ (distance?_mark hname true hx))
      · exact Nat.le_trans hleads.settles.size_le
          (Nat.le_trans hlater.size_le (grows_newScope _ _).size_le)
      · intro i x v hx hi hv
        have hi' := Nat.lt_of_lt_of_le hi hleads.settles.size_le
        refine (grows_newScope m.memory _).fixed i x v hx (Nat.lt_of_lt_of_le hi' hlater.size_le) ?_
        refine hlater.fixed i x v hx hi' ?_
        exact (hleads.settles.settled i x hx hi).trans hv

/-- The body of a method stands in the class whose table holds the method. -/
theorem atHome_method {o : Scoping.Origin} {chain : Chain} {args : List Value} {r : Instance}
    {m m' : Machine} {seen : Chain} {n : Nat}
    (hcall : Reached h k ⟨n + 1, .function (o.closure chain) args (some r), m⟩)
    (hchain : Eval.bodyChain (o.closure chain) args (some r) m = .ok seen m')
    (hbody : Reached h k ⟨n, o.body, { m' with chain := seen }⟩) (hmethod : o.isMethod = true)
    (hc : c ∈ r.ofClass.ancestry) (hdefines : c.Defines (o.closure chain)) :
    AtHome ⟨n, o.body, { m' with chain := seen }⟩ c := by
  obtain ⟨hm, hsoundCall, hargs⟩ := soundWork_of_reached hhonest hbinds hready hsound hcall
  obtain ⟨hleads, _, _⟩ := (Keeps.bodyChain hm hsoundCall hargs).of_eq hchain
  obtain ⟨j, outer, rfl, hj, hsuper⟩ := ((hsoundCall.1 c hc).methods _ hdefines).2
  obtain ⟨hcontext, _, _, _⟩ := valid_of_reached hhonest hready hbody
  have hparams : ∀ p ∈ o.decl.params, ¬Reserved p.name := by
    rw [← o.params_resolved]
    exact FunctionDecl.params_not_reserved hsoundCall.closure.ordinary
  have houter : o.outer = o.scopes.enterWith "this" := by
    unfold Scoping.Origin.outer
    rw [hmethod]
    rfl
  -- the receiver lies in the scope right outside the parameters
  have hthis : Scopes.distance? (Param.resolveAll o.outer.enter o.decl.params).value "this" =
      some 1 := by
    rw [distance?_params hparams o.outer (.inl rfl), houter, Scopes.distance?_enterWith]
    rfl
  have hsame := hleads.settles.settled j _ (.inr rfl) hj
  cases hchain
  refine ⟨1, m.memory.scopes.size, j :: outer, r, hthis, rfl, ?_, ?_, hc, fun hderived => ?_⟩
  · exact Nat.lt_of_lt_of_le (Nat.lt_succ_self _) (Nat.le_trans (Nat.le_of_eq
      (size_newScope m.memory _).symm) (grows_newScope _ _).size_le)
  · have hnew : m.memory.scopes.size <
        (m.memory.newScope (Table.ofList [("this", .instance r)])).2.scopes.size := by
      rw [size_newScope]
      exact Nat.lt_succ_self _
    show (((m.memory.newScope _).2.newScope _).2.scope m.memory.scopes.size).get? "this" = _
    rw [scope_newScope_of_lt _ hnew, scope_newScope_self]
    rfl
  · have hplaced := hcontext.placed
    rw [show (o.around.inFunction o.kind).enclosingClass = .derived from hderived] at hplaced
    obtain ⟨d, hd, hd'⟩ := hplaced
    cases hthis.symm.trans hd
    obtain ⟨i, rest, scope, hancestor, _, _, hhas, hshows⟩ := hcontext.agrees.at_distance hd'
    cases hancestor
    obtain ⟨b, hb⟩ := hshows.superclass hhas
    refine ⟨hd', j, outer, b, rfl, Nat.lt_of_lt_of_le hj hleads.settles.size_le, hb, ?_⟩
    exact (hsuper b).1 (hsame.symm.trans hb)

/-- **What lies under `this` and `super`**, wherever a piece of program stands in a class. -/
theorem atHome_of_around (haround : Around h k p c) : AtHome p c := by
  induction haround with
  | part haround hpart hq ih =>
      have hreached := haround.reached
      have hvalid := valid_of_reached hhonest hready hreached
      have hwork := soundWork_of_reached hhonest hbinds hready hsound hreached
      exact ih.inner (inner_part hhonest hbinds hvalid hwork hpart hq)
  | method hcall hchain hmaker hmakes hmethod hlater hc hdefines =>
      exact atHome_method hhonest hbinds hready hsound hcall hchain
        (.body hcall hchain hmaker hmakes hmethod.symm hlater) hmethod hc hdefines
  | function _ hchain hmaker hmakes hmethod hlater ih =>
      exact atHome_function hhonest hbinds hready hsound hchain hmaker.reached hmakes hmethod hlater
        ih

omit hhonest hbinds hready hsound in
theorem static_of_kind {p : Moment} (hkind : p.kind ≠ .none) : Static p := by
  obtain ⟨n, work, m⟩ := p
  cases work with
  | expr | exprs | stmt | loop | decl | decls => rfl
  | call | invoke | function | construct => exact absurd rfl hkind

/-- **Whatever stands in a class stands in a class value.** -/
theorem exists_around (hreached : Reached h k p) (hkind : p.kind ≠ .none) :
    ∃ c, Around h k p c := by
  induction hreached with
  | @start k fuel source p _ _ _ =>
      refine absurd ?_ hkind
      rcases start_cases (h.session.after (h.inputs.take k)) fuel p with ⟨e, heq, _⟩ | ⟨heq, _⟩
      · rw [heq]
        rfl
      · rw [heq]
        rfl
  | @part k p q hp hpart ih =>
      have hq := static_of_kind hkind
      have hvalid := valid_of_reached hhonest hready hp
      have hwork := soundWork_of_reached hhonest hbinds hready hsound hp
      have hsame : q.kind = p.kind := by
        cases inner_part hhonest hbinds hvalid hwork hpart hq with
        | along _ hsame _ => exact hsame
        | block _ hsame _ => exact hsame
      obtain ⟨c, haround⟩ := ih (hsame ▸ hkind)
      exact ⟨c, haround.part hpart hq⟩
  | @body k n o chain args receiver m seen m' k' maker memory hcall hchain hmaker hmakes hreceiver
      hlater _ ihmaker =>
      cases receiver with
      | none =>
          have hmethod : o.isMethod = false := hreceiver.symm
          -- the body of a function stands in the class that its declaration stands in
          have hsame : maker.kind = o.around.enclosingClass := by
            cases hmakes with
            | function => rfl
            | method => exact nomatch (isMethod_methodKind _).symm.trans hmethod
          obtain ⟨c, haround⟩ := ihmaker (hsame ▸ hkind)
          exact ⟨c, .function hcall hchain haround hmakes hmethod hlater⟩
      | some r =>
          obtain ⟨_, ⟨_, c, hc, hdefines⟩, _⟩ :=
            soundWork_of_reached hhonest hbinds hready hsound hcall
          exact ⟨c, .method hcall hchain hmaker hmakes hreceiver.symm hlater hc hdefines⟩

end Reached

end Lox.Receivers
