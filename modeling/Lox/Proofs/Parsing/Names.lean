import Lox.Proofs.Parsing.Acceptance

/-!
# Names that programs bind

The words `this` and `super` are no identifiers, so no program declares them or assigns to them.
Whatever a scope binds under these names was put there by a call or by the declaration of a class.

## Contents
- `Reserved`: the two words.
- `Expr.Ordinary`, `Decl.Ordinary`: syntax trees that bind no reserved name.
- `Name.not_reserved`, `Declarations.ordinary`: what identifiers are, and what derivations make.
- `ordinary_of_parse`: parsed programs bind no reserved name.
-/

namespace Lox

/-- The words under which receivers and superclasses are bound. -/
def Reserved (name : String) : Prop := name = "this" ∨ name = "super"

instance (name : String) : Decidable (Reserved name) :=
  inferInstanceAs (Decidable (name = "this" ∨ name = "super"))

/-! ## Trees -/

mutual

/-- An expression assigns to no reserved name. -/
def Expr.Ordinary : Expr → Prop
  | .literal _ _ => True
  | .grouping inner _ => inner.Ordinary
  | .unary _ operand _ => operand.Ordinary
  | .binary _ left right _ => left.Ordinary ∧ right.Ordinary
  | .logical _ left right _ => left.Ordinary ∧ right.Ordinary
  | .variable _ => True
  | .assign name _ value _ => ¬Reserved name ∧ value.Ordinary
  | .call callee args _ => callee.Ordinary ∧ Expr.OrdinaryAll args
  | .get object _ _ => object.Ordinary
  | .set object _ value _ => object.Ordinary ∧ value.Ordinary
  | .this _ _ => True
  | .super _ _ _ => True

/-- Expressions assign to no reserved name. -/
def Expr.OrdinaryAll : List Expr → Prop
  | [] => True
  | e :: es => e.Ordinary ∧ Expr.OrdinaryAll es

end

/-- An expression that may be absent assigns to no reserved name. -/
def Expr.OrdinaryOption : Option Expr → Prop
  | none => True
  | some e => e.Ordinary

mutual

/-- A statement binds no reserved name. -/
def Stmt.Ordinary : Stmt → Prop
  | .expression value _ => value.Ordinary
  | .print value _ => value.Ordinary
  | .block body _ => Decl.OrdinaryAll body
  | .ifThenElse condition thenBranch none _ => condition.Ordinary ∧ thenBranch.Ordinary
  | .ifThenElse condition thenBranch (some elseBranch) _ =>
    condition.Ordinary ∧ thenBranch.Ordinary ∧ elseBranch.Ordinary
  | .whileLoop condition body increment _ =>
    condition.Ordinary ∧ body.Ordinary ∧ Expr.OrdinaryOption increment
  | .break _ => True
  | .continue _ => True
  | .return value _ => Expr.OrdinaryOption value

/-- A declaration binds no reserved name. -/
def Decl.Ordinary : Decl → Prop
  | .var name initial _ => ¬Reserved name ∧ Expr.OrdinaryOption initial
  | .function decl => decl.Ordinary
  | .class name _ methods _ => ¬Reserved name ∧ FunctionDecl.OrdinaryAll methods
  | .stmt s => s.Ordinary

/-- Declarations bind no reserved name. -/
def Decl.OrdinaryAll : List Decl → Prop
  | [] => True
  | d :: ds => d.Ordinary ∧ Decl.OrdinaryAll ds

/-- A function has no reserved name, and binds none. -/
def FunctionDecl.Ordinary : FunctionDecl → Prop
  | ⟨name, params, body, _⟩ =>
    ¬Reserved name ∧ (∀ p ∈ params, ¬Reserved p.name) ∧ Decl.OrdinaryAll body

/-- Functions have no reserved names, and bind none. -/
def FunctionDecl.OrdinaryAll : List FunctionDecl → Prop
  | [] => True
  | f :: fs => f.Ordinary ∧ FunctionDecl.OrdinaryAll fs

end

/-! ## Places do not matter -/

mutual

theorem Expr.ordinary_bare : (e : Expr) → (e.bare.Ordinary ↔ e.Ordinary)
  | .literal _ _ => Iff.rfl
  | .grouping inner _ => inner.ordinary_bare
  | .unary _ operand _ => operand.ordinary_bare
  | .binary _ left right _ => and_congr left.ordinary_bare right.ordinary_bare
  | .logical _ left right _ => and_congr left.ordinary_bare right.ordinary_bare
  | .variable _ => Iff.rfl
  | .assign _ _ value _ => and_congr Iff.rfl value.ordinary_bare
  | .call callee args _ => and_congr callee.ordinary_bare (Expr.ordinaryAll_bare args)
  | .get object _ _ => object.ordinary_bare
  | .set object _ value _ => and_congr object.ordinary_bare value.ordinary_bare
  | .this _ _ => Iff.rfl
  | .super _ _ _ => Iff.rfl

theorem Expr.ordinaryAll_bare : (es : List Expr) →
    (Expr.OrdinaryAll (Expr.bareAll es) ↔ Expr.OrdinaryAll es)
  | [] => Iff.rfl
  | e :: es => and_congr e.ordinary_bare (Expr.ordinaryAll_bare es)

end

theorem Expr.ordinaryOption_bare (e : Option Expr) :
    Expr.OrdinaryOption (e.map Expr.bare) ↔ Expr.OrdinaryOption e := by
  cases e with
  | none => exact Iff.rfl
  | some e => exact e.ordinary_bare

theorem Param.forall_bare (params : List Param) :
    (∀ p ∈ params.map Param.bare, ¬Reserved p.name) ↔ ∀ p ∈ params, ¬Reserved p.name := by
  rw [List.forall_mem_map]
  exact Iff.rfl

mutual

theorem Stmt.ordinary_bare : (s : Stmt) → (s.bare.Ordinary ↔ s.Ordinary)
  | .expression value _ => value.ordinary_bare
  | .print value _ => value.ordinary_bare
  | .block body _ => Decl.ordinaryAll_bare body
  | .ifThenElse condition thenBranch none _ =>
    and_congr condition.ordinary_bare thenBranch.ordinary_bare
  | .ifThenElse condition thenBranch (some elseBranch) _ =>
    and_congr condition.ordinary_bare
      (and_congr thenBranch.ordinary_bare elseBranch.ordinary_bare)
  | .whileLoop condition body increment _ =>
    and_congr condition.ordinary_bare
      (and_congr body.ordinary_bare (Expr.ordinaryOption_bare increment))
  | .break _ => Iff.rfl
  | .continue _ => Iff.rfl
  | .return value _ => Expr.ordinaryOption_bare value

theorem Decl.ordinary_bare : (d : Decl) → (d.bare.Ordinary ↔ d.Ordinary)
  | .var _ initial _ => and_congr Iff.rfl (Expr.ordinaryOption_bare initial)
  | .function decl => decl.ordinary_bare
  | .class _ _ methods _ => and_congr Iff.rfl (FunctionDecl.ordinaryAll_bare methods)
  | .stmt s => s.ordinary_bare

theorem Decl.ordinaryAll_bare : (ds : List Decl) →
    (Decl.OrdinaryAll (Decl.bareAll ds) ↔ Decl.OrdinaryAll ds)
  | [] => Iff.rfl
  | d :: ds => and_congr d.ordinary_bare (Decl.ordinaryAll_bare ds)

theorem FunctionDecl.ordinary_bare : (f : FunctionDecl) → (f.bare.Ordinary ↔ f.Ordinary)
  | ⟨_, params, body, _⟩ =>
    and_congr Iff.rfl (and_congr (Param.forall_bare params) (Decl.ordinaryAll_bare body))

theorem FunctionDecl.ordinaryAll_bare : (fs : List FunctionDecl) →
    (FunctionDecl.OrdinaryAll (FunctionDecl.bareAll fs) ↔ FunctionDecl.OrdinaryAll fs)
  | [] => Iff.rfl
  | f :: fs => and_congr f.ordinary_bare (FunctionDecl.ordinaryAll_bare fs)

end

namespace Grammar

/-! ## Identifiers -/

/-- No identifier among these tokens is a reserved word. -/
def Distinct (us : List Token) : Prop :=
  ∀ t ∈ us, t.kind = .identifier → ¬Reserved t.lexeme

theorem Distinct.suffix {us vs : List Token} (h : Distinct us) (hsuffix : vs <:+ us) :
    Distinct vs := fun t ht => h t (hsuffix.subset ht)

theorem Name.not_reserved {us vs : List Token} {name : String} (h : Name us name vs)
    (hus : Distinct us) : ¬Reserved name := by
  cases h with
  | intro hkind => exact hus _ List.mem_cons_self hkind

theorem Infix.ordinary_join (op : Infix) {left right : Expr} (hleft : left.Ordinary)
    (hright : right.Ordinary) : (op.join left right).Ordinary := by
  cases op <;> exact ⟨hleft, hright⟩

/-! ## Derivations -/

mutual

theorem Assignment.ordinary {room : Room} {us vs : List Token} {e : Expr} :
    Assignment room us e vs → Distinct us → e.Ordinary
  | .variable _ _ hname hequal hvalue, hus =>
    ⟨hname.not_reserved hus, hvalue.ordinary (hus.suffix (hequal.suffix.trans hname.suffix))⟩
  | .property _ _ hobject hdot hname hequal hvalue, hus =>
    ⟨hobject.ordinary hus, hvalue.ordinary (hus.suffix (hequal.suffix.trans
      (hname.suffix.trans (hdot.suffix.trans hobject.begins.suffix))))⟩
  | .operation _ h, hus => h.ordinary hus

theorem Operation.ordinary {room : Room} {levels : List Operators} {us vs : List Token}
    {e : Expr} : Operation room levels us e vs → Distinct us → e.Ordinary
  | .unary h, hus => h.ordinary hus
  | .operand h, hus => h.ordinary hus
  | .join hleft _ hop hright, hus =>
    Infix.ordinary_join _ (hleft.ordinary hus)
      (hright.ordinary (hus.suffix (hop.suffix.trans hleft.begins.suffix)))

theorem Unary.ordinary {room : Room} {us vs : List Token} {e : Expr} :
    Unary room us e vs → Distinct us → e.Ordinary
  | .sign _ _ hsign hoperand, hus => hoperand.ordinary (hus.suffix hsign.suffix)
  | .call _ h, hus => h.ordinary hus

theorem Call.ordinary {room : Room} {us vs : List Token} {e : Expr} :
    Call room us e vs → Distinct us → e.Ordinary
  | .primary h, hus => h.ordinary hus
  | .call hcallee hopen hargs _, hus =>
    ⟨hcallee.ordinary hus,
      hargs.ordinary (hus.suffix (hopen.suffix.trans hcallee.begins.suffix))⟩
  | .property hobject _ _, hus => hobject.ordinary hus

theorem Arguments.ordinary {room : Room} {us vs : List Token} {args : List Expr} :
    Arguments room us args vs → Distinct us → Expr.OrdinaryAll args
  | .none, _ => trivial
  | .some h _, hus => h.ordinary hus

theorem Expressions.ordinary {room : Room} {us vs : List Token} {es : List Expr} :
    Expressions room us es vs → Distinct us → Expr.OrdinaryAll es
  | .last h, hus => ⟨h.ordinary hus, trivial⟩
  | .cons h hcomma hs, hus =>
    ⟨h.ordinary hus, hs.ordinary (hus.suffix (hcomma.suffix.trans h.begins.suffix))⟩

theorem Primary.ordinary {room : Room} {us vs : List Token} {e : Expr} :
    Primary room us e vs → Distinct us → e.Ordinary
  | .false _, _ | .true _, _ | .nil _, _ | .literal _, _ | .this _, _ | .variable _, _
  | .super _ _ _, _ => trivial
  | .grouping hopen h _, hus => h.ordinary (hus.suffix hopen.suffix)

end

section Parts

variable {room : Room} {us vs : List Token} (hus : Distinct us)

include hus

theorem OptionalExpression.ordinary {e : Option Expr} (h : OptionalExpression room us e vs) :
    Expr.OrdinaryOption e := by
  cases h with
  | none => exact trivial
  | some h => exact h.ordinary hus

theorem ExpressionStatement.ordinary {s : Stmt} (h : ExpressionStatement room us s vs) :
    s.Ordinary := by
  cases h with
  | intro h _ => exact h.ordinary hus

theorem VarDeclaration.ordinary {d : Decl} (h : VarDeclaration room us d vs) : d.Ordinary := by
  cases h with
  | uninitialized hvar hname _ => exact ⟨hname.not_reserved (hus.suffix hvar.suffix), trivial⟩
  | initialized hvar hname hequal h _ =>
      have hname' := hname.not_reserved (hus.suffix hvar.suffix)
      have hsuffix := hequal.suffix.trans (hname.suffix.trans hvar.suffix)
      exact ⟨hname', h.ordinary (hus.suffix hsuffix)⟩

theorem Condition.ordinary {kind : Token.Kind} {e : Expr} (h : Condition kind room us e vs) :
    e.Ordinary := by
  cases h with
  | intro hword hopen h _ => exact h.ordinary (hus.suffix (hopen.suffix.trans hword.suffix))

theorem ForInitializer.ordinary {d : Option Decl} (h : ForInitializer room us d vs) :
    ∀ d' ∈ d, d'.Ordinary := by
  cases h with
  | none => exact nofun
  | declaration h =>
      rintro _ ⟨⟩
      exact h.ordinary hus
  | expression h =>
      rintro _ ⟨⟩
      exact h.ordinary hus

/-- The loop that the clauses of a `for` make of an ordinary body. -/
theorem ForClauses.ordinary {clauses : Clauses} {s : Stmt}
    (h : ForClauses room us clauses vs) (hs : s.Ordinary) : (clauses.loop s).Ordinary := by
  cases h with
  | @intro us₁ us₂ us₃ us₄ us₅ us₆ _ initial condition increment hword hopen hinitial hcondition
      hsemicolon hincrement hclose =>
      have hus₂ := hus.suffix (hopen.suffix.trans hword.suffix)
      have hus₃ := hus₂.suffix hinitial.suffix
      have hus₅ := hus₃.suffix (hsemicolon.suffix.trans hcondition.suffix)
      have hloop : Decl.OrdinaryAll [.stmt (.whileLoop (condition.getD (.literal (.bool true) bare))
          s increment bare)] := by
        refine ⟨⟨?_, hs, hincrement.ordinary hus₅⟩, trivial⟩
        cases condition with
        | none => exact trivial
        | some e => exact hcondition.ordinary hus₃
      cases initial with
      | none => exact hloop
      | some d => exact ⟨hinitial.ordinary hus₂ d rfl, hloop⟩

end Parts

theorem Names.ordinary {us vs : List Token} {params : List Param} (h : Names us params vs)
    (hus : Distinct us) : ∀ p ∈ params, ¬Reserved p.name := by
  induction h with
  | last hname =>
      intro p hp
      cases List.mem_singleton.1 hp
      exact hname.not_reserved hus
  | cons hname hcomma _ ih =>
      intro p hp
      rcases List.mem_cons.1 hp with rfl | hp
      · exact hname.not_reserved hus
      · exact ih (hus.suffix (hcomma.suffix.trans hname.suffix)) p hp

theorem Parameters.ordinary {us vs : List Token} {params : List Param}
    (h : Parameters us params vs) (hus : Distinct us) : ∀ p ∈ params, ¬Reserved p.name := by
  cases h with
  | none => exact nofun
  | some h _ => exact h.ordinary hus

mutual

theorem Statement.ordinary {nearest : Prop} {room : Room} {us vs : List Token} {s : Stmt} :
    Statement nearest room us s vs → Distinct us → s.Ordinary
  | .expression _ h, hus => h.ordinary hus
  | .print _ hword he _, hus => he.ordinary (hus.suffix hword.suffix)
  | .block _ hopen hbody _, hus => hbody.ordinary (hus.suffix hopen.suffix)
  | .ifThen _ hcondition hthen _, hus =>
    ⟨hcondition.ordinary hus, hthen.ordinary (hus.suffix hcondition.begins.suffix)⟩
  | .ifThenElse _ hcondition hthen helse hotherwise, hus =>
    have hthenSuffix := hus.suffix hcondition.begins.suffix
    ⟨hcondition.ordinary hus, hthen.ordinary hthenSuffix,
      hotherwise.ordinary (hthenSuffix.suffix (helse.suffix.trans hthen.begins.suffix))⟩
  | .whileLoop _ hcondition hbody, hus =>
    ⟨hcondition.ordinary hus, hbody.ordinary (hus.suffix hcondition.begins.suffix), trivial⟩
  | .forLoop _ hclauses hbody, hus =>
    hclauses.ordinary hus (hbody.ordinary (hus.suffix hclauses.begins.suffix))
  | .break _ _ _, _ => trivial
  | .continue _ _ _, _ => trivial
  | .return _ hword he _, hus => he.ordinary (hus.suffix hword.suffix)

theorem Declaration.ordinary {nearest : Prop} {room : Room} {us vs : List Token} {d : Decl} :
    Declaration nearest room us d vs → Distinct us → d.Ordinary
  | .class hword hname hsuperclass hopen hmethods _, hus =>
    ⟨hname.not_reserved (hus.suffix hword.suffix), hmethods.ordinary (hus.suffix
      (hopen.suffix.trans (hsuperclass.suffix.trans (hname.suffix.trans hword.suffix))))⟩
  | .function hword hf, hus => hf.ordinary (hus.suffix hword.suffix)
  | .var h, hus => h.ordinary hus
  | .statement h, hus => h.ordinary hus

theorem Declarations.ordinary {nearest : Prop} {room : Room} {us vs : List Token}
    {ds : List Decl} : Declarations nearest room us ds vs → Distinct us → Decl.OrdinaryAll ds
  | .nil, _ => trivial
  | .cons hd hds, hus => ⟨hd.ordinary hus, hds.ordinary (hus.suffix hd.begins.suffix)⟩

theorem Function.ordinary {nearest : Prop} {room : Room} {us vs : List Token}
    {f : FunctionDecl} : Function nearest room us f vs → Distinct us → f.Ordinary
  | .intro hname hopen hparams hclose hbrace hbody _, hus =>
    have hus₂ := hus.suffix (hopen.suffix.trans hname.suffix)
    ⟨hname.not_reserved hus, hparams.ordinary hus₂, hbody.ordinary (hus₂.suffix
      (hbrace.suffix.trans (hclose.suffix.trans hparams.suffix)))⟩

theorem Methods.ordinary {nearest : Prop} {room : Room} {us vs : List Token}
    {fs : List FunctionDecl} : Methods nearest room us fs vs → Distinct us →
      FunctionDecl.OrdinaryAll fs
  | .nil, _ => trivial
  | .cons hf hfs, hus => ⟨hf.ordinary hus, hfs.ordinary (hus.suffix hf.begins.suffix)⟩

end

end Grammar

/-! ## Source texts -/

theorem Token.not_reserved_of_wordKind {word : String} (h : Token.wordKind word = .identifier) :
    ¬Reserved word := by
  rintro (rfl | rfl) <;> exact absurd h (by decide)

namespace Piece

theorem munchOperator_not_identifier (c : Char) (rest : List Char) :
    (munchOperator c rest).1.shape ≠ .token .identifier := by
  have hdouble (d : Char) : Token.doubleOperator? c d ≠ some .identifier := by
    unfold Token.doubleOperator?
    split <;> decide
  have hsingle : Token.singleOperator? c ≠ some .identifier := by
    unfold Token.singleOperator?
    split <;> decide
  intro h
  unfold munchOperator at h
  split at h
  · split at h
    · rename_i heq
      injection h with h
      exact hdouble _ (h ▸ heq)
    · rename_i heq
      injection h with h
      exact hsingle (h ▸ heq)
    · exact nomatch h
  · split at h
    · rename_i heq
      injection h with h
      exact hsingle (h ▸ heq)
    · exact nomatch h

/-- An identifier is a word that is no keyword. -/
theorem munch_not_reserved (c : Char) (rest : List Char)
    (h : (munch c rest).1.shape = .token .identifier) :
    ¬Reserved (String.ofList (munch c rest).1.text) := by
  unfold munch at h ⊢
  split at h
  · exact nomatch h
  rename_i hblank
  rw [if_neg hblank]
  split at h
  · exact nomatch h
  rename_i hcomment
  rw [if_neg hcomment]
  split at h
  · unfold munchString at h
    split at h <;> exact nomatch h
  rename_i hquote
  rw [if_neg hquote]
  split at h
  · unfold munchNumber munchFraction at h
    split at h
    · split at h <;> exact nomatch h
    · exact nomatch h
  rename_i hdigit
  rw [if_neg hdigit]
  split at h
  · rename_i hword
    rw [if_pos hword]
    injection h with h
    exact Token.not_reserved_of_wordKind h
  · exact absurd h (munchOperator_not_identifier c rest)

theorem pieces_not_reserved (cs : List Char) :
    ∀ p ∈ pieces cs, p.shape = .token .identifier → ¬Reserved (String.ofList p.text) := by
  fun_induction pieces cs with
  | case1 =>
      intro p hp
      exact absurd hp List.not_mem_nil
  | case2 c rest ih =>
      intro p hp hshape
      rcases List.mem_cons.1 hp with rfl | hp
      · exact munch_not_reserved c rest hshape
      · exact ih p hp hshape

/-- The tokens at the places of pieces are made of pieces. -/
theorem mem_of_mem_locate {l l' : Location} {p : Piece} {ps : List Piece}
    (h : (l', p) ∈ locate l ps) : p ∈ ps := by
  induction ps generalizing l with
  | nil => exact nomatch h
  | cons q qs ih =>
      rcases List.mem_cons.1 h with heq | h
      · injection heq with _ heq
        exact heq ▸ List.mem_cons_self
      · exact List.mem_cons_of_mem _ (ih h)

end Piece

theorem Grammar.distinct_tokens (source : List Char) : Grammar.Distinct (scan source).tokens := by
  intro t ht hkind
  obtain ⟨⟨l, p⟩, hmem, htoken⟩ := List.mem_filterMap.1 ht
  change p.token? l = some t at htoken
  unfold Piece.token? at htoken
  cases hshape : p.shape with
  | token kind =>
      rw [hshape] at htoken
      cases htoken
      cases hkind
      exact Piece.pieces_not_reserved source p (Piece.mem_of_mem_locate hmem) hshape
  | blank | comment | flaw =>
      rw [hshape] at htoken
      exact nomatch htoken

/-- **Parsed programs bind no reserved name.** -/
theorem ordinary_of_parse {source : List Char} {p : Program} (h : Program.parse source = .ok p) :
    Decl.OrdinaryAll p.body := by
  obtain ⟨_, c, hprogram⟩ := (Parsing.parse_ok_iff source p).1 h
  obtain ⟨_, hderives⟩ := Parsing.Reads.program _ _ _ hprogram
  exact (Decl.ordinaryAll_bare p.body).1 (hderives.ordinary (Grammar.distinct_tokens source))

end Lox
