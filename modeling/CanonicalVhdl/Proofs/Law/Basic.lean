import CanonicalVhdl.Design.File

/-!
# Laws for the nodes of a tree

What is asked of every tree is mostly asked of every node of one kind in it: that each call
has an argument, that the names of each port clause are distinct, and so on.  A collection of
*laws* says what is asked of the nodes of every kind, each looked at from its root, and a tree
obeys the laws when all of its nodes do.

## Main definitions

* `Laws` — one condition for every kind of node; those that are not given ask for nothing.
* `Expr.Obeys`, `Sequential.Obeys`, `DesignFile.Obeys` and their companions — every node of a
  tree satisfies the laws.
-/

namespace CanonicalVhdl

/-- What is asked of the nodes of a tree, kind by kind. -/
structure Laws where
  /-- What is asked of identifiers. -/
  ident : Ident → Prop := fun _ => True
  /-- What is asked of comments. -/
  comment : Comment → Prop := fun _ => True
  /-- What is asked of expressions. -/
  expr : Expr → Prop := fun _ => True
  /-- What is asked of literals, those inside aggregates included. -/
  literal : Literal → Prop := fun _ => True
  /-- What is asked of declarations of objects. -/
  object : ObjectDecl → Prop := fun _ => True
  /-- What is asked of choices. -/
  choice : Choice → Prop := fun _ => True
  /-- What is asked of sequential code. -/
  sequential : Sequential → Prop := fun _ => True
  /-- What is asked of the values of concurrent assignments. -/
  waveform : Waveform → Prop := fun _ => True
  /-- What is asked of processes. -/
  process : ProcessStatement → Prop := fun _ => True
  /-- What is asked of concurrent code. -/
  concurrent : Concurrent → Prop := fun _ => True
  /-- What is asked of ports. -/
  port : Port → Prop := fun _ => True
  /-- What is asked of generics. -/
  generic : Generic → Prop := fun _ => True
  /-- What is asked of port clauses. -/
  portClause : PortClause → Prop := fun _ => True
  /-- What is asked of generic clauses. -/
  genericClause : GenericClause → Prop := fun _ => True
  /-- What is asked of declarations of types. -/
  typeDecl : TypeDecl → Prop := fun _ => True
  /-- What is asked of signatures. -/
  signature : Signature → Prop := fun _ => True
  /-- What is asked of the declarative parts of architectures. -/
  head : DeclarativePart → Prop := fun _ => True
  /-- What is asked of packages. -/
  package : Package → Prop := fun _ => True
  /-- What is asked of the contents of package bodies. -/
  bodyItem : BodyItem → Prop := fun _ => True

variable (L : Laws)

/-! ## Expressions -/

mutual

/-- Whether the nodes of an expression obey the laws. -/
def Expr.Obeys : Expr → Prop
  | .reference r => L.expr (.reference r) ∧ r.Obeys
  | .literal l => L.expr (.literal l) ∧ l.Obeys
  | .arith lhs op rhs => L.expr (.arith lhs op rhs) ∧ lhs.Obeys ∧ rhs.Obeys
  | .group inner => L.expr (.group inner) ∧ inner.Obeys
  | .compare lhs op rhs => L.expr (.compare lhs op rhs) ∧ lhs.Obeys ∧ rhs.Obeys
  | .edge kind signal => L.expr (.edge kind signal) ∧ signal.Obeys
  | .negation operand => L.expr (.negation operand) ∧ operand.Obeys
  | .logic lhs op rhs => L.expr (.logic lhs op rhs) ∧ lhs.Obeys ∧ rhs.Obeys
  | .convert kind value => L.expr (.convert kind value) ∧ value.Obeys
  | .call name arguments =>
    L.expr (.call name arguments) ∧ L.ident name ∧ Argument.AllObey arguments

/-- Whether an argument obeys the laws. -/
def Argument.Obeys : Argument → Prop
  | .mk parameter value => (∀ i ∈ parameter, L.ident i) ∧ value.Obeys

/-- Whether arguments obey the laws. -/
def Argument.AllObey : List Argument → Prop
  | [] => True
  | a :: as => a.Obeys ∧ Argument.AllObey as

/-- Whether a reference obeys the laws. -/
def Reference.Obeys : Reference → Prop
  | .name name => L.ident name
  | .member record member => L.ident record ∧ L.ident member
  | .indexed name index => L.ident name ∧ index.Obeys
  | .attributeOf object _ => L.ident object

/-- Whether an index obeys the laws. -/
def Index.Obeys : Index → Prop
  | .position value => value.Obeys
  | .slice range => range.Obeys
  | .others => True

/-- Whether a range obeys the laws. -/
def Range.Obeys : Range → Prop
  | .ascending low high => low.Obeys ∧ high.Obeys
  | .descending high low => high.Obeys ∧ low.Obeys

/-- Whether a literal obeys the laws. -/
def Literal.Obeys : Literal → Prop
  | .bit value => L.literal (.bit value)
  | .boolean value => L.literal (.boolean value)
  | .real value => L.literal (.real value)
  | .integer value => L.literal (.integer value)
  | .logic value => L.literal (.logic value)
  | .vector value => L.literal (.vector value) ∧ value.Obeys

/-- Whether the elements of a vector literal obey the laws. -/
def VectorLiteral.Obeys : VectorLiteral → Prop
  | .bits _ | .logics _ | .hexadecimal _ | .octal _ => True
  | .aggregate elements => Element.AllObey elements

/-- Whether an element obeys the laws. -/
def Element.Obeys : Element → Prop
  | .mk index value => index.Obeys ∧ value.Obeys

/-- Whether elements obey the laws. -/
def Element.AllObey : List Element → Prop
  | [] => True
  | e :: es => e.Obeys ∧ Element.AllObey es

end

theorem Argument.allObey_iff {as : List Argument} :
    Argument.AllObey L as ↔ ∀ a ∈ as, a.Obeys L := by
  induction as with
  | nil => simp [Argument.AllObey]
  | cons a as ih => simp [Argument.AllObey, ih]

theorem Element.allObey_iff {es : List Element} :
    Element.AllObey L es ↔ ∀ e ∈ es, e.Obeys L := by
  induction es with
  | nil => simp [Element.AllObey]
  | cons e es ih => simp [Element.AllObey, ih]

/-! ## Types, objects and simple statements -/

/-- Whether a built-in type obeys the laws. -/
def BuiltinType.Obeys : BuiltinType → Prop
  | .scalar _ => True
  | .vector _ range | .integerRange range => range.Obeys L

/-- Whether a type obeys the laws. -/
def TypeMark.Obeys : TypeMark → Prop
  | .builtin type => type.Obeys L
  | .named name => L.ident name

/-- Whether a declaration of an object obeys the laws. -/
def ObjectDecl.Obeys (d : ObjectDecl) : Prop :=
  L.object d ∧ L.ident d.name ∧ d.type.Obeys L ∧ (∀ e ∈ d.default, e.Obeys L)
    ∧ ∀ c ∈ d.comment, L.comment c

/-- Whether a statement obeys the laws. -/
def Statement.Obeys : Statement → Prop
  | .declaration d => d.Obeys L
  | .assignment target _ value => target.Obeys L ∧ value.Obeys L
  | .comment c => L.comment c
  | .null => True
  | .result value => ∀ e ∈ value, e.Obeys L

/-! ## Sequential code -/

mutual

/-- Whether a choice obeys the laws. -/
def Choice.Obeys : Choice → Prop
  | .value e => L.choice (.value e) ∧ e.Obeys L
  | .range r => L.choice (.range r) ∧ r.Obeys L
  | .alternatives choices => L.choice (.alternatives choices) ∧ Choice.AllObey choices
  | .others => L.choice .others

/-- Whether choices obey the laws. -/
def Choice.AllObey : List Choice → Prop
  | [] => True
  | c :: cs => c.Obeys ∧ Choice.AllObey cs

end

mutual

/-- Whether sequential code obeys the laws. -/
def Sequential.Obeys : Sequential → Prop
  | .simple s => L.sequential (.simple s) ∧ s.Obeys L
  | .conditional condition body otherwise =>
    L.sequential (.conditional condition body otherwise) ∧ condition.Obeys L ∧ body.Obeys
      ∧ Sequential.MayObey otherwise
  | .selection selector branches =>
    L.sequential (.selection selector branches) ∧ selector.Obeys L ∧ Branch.AllObey branches
  | .loop parameter range body =>
    L.sequential (.loop parameter range body) ∧ L.ident parameter ∧ range.Obeys L ∧ body.Obeys
  | .region elements => L.sequential (.region elements) ∧ Sequential.AllObey elements

/-- Whether sequential code that may be missing obeys the laws. -/
def Sequential.MayObey : Option Sequential → Prop
  | none => True
  | some s => s.Obeys

/-- Whether a list of sequential code obeys the laws. -/
def Sequential.AllObey : List Sequential → Prop
  | [] => True
  | s :: ss => s.Obeys ∧ Sequential.AllObey ss

/-- Whether a branch obeys the laws. -/
def Branch.Obeys : Branch → Prop
  | .mk choice body => choice.Obeys L ∧ body.Obeys

/-- Whether branches obey the laws. -/
def Branch.AllObey : List Branch → Prop
  | [] => True
  | b :: bs => b.Obeys ∧ Branch.AllObey bs

end

theorem Choice.allObey_iff {cs : List Choice} : Choice.AllObey L cs ↔ ∀ c ∈ cs, c.Obeys L := by
  induction cs with
  | nil => simp [Choice.AllObey]
  | cons c cs ih => simp [Choice.AllObey, ih]

theorem Sequential.allObey_iff {ss : List Sequential} :
    Sequential.AllObey L ss ↔ ∀ s ∈ ss, s.Obeys L := by
  induction ss with
  | nil => simp [Sequential.AllObey]
  | cons s ss ih => simp [Sequential.AllObey, ih]

theorem Branch.allObey_iff {bs : List Branch} : Branch.AllObey L bs ↔ ∀ b ∈ bs, b.Obeys L := by
  induction bs with
  | nil => simp [Branch.AllObey]
  | cons b bs ih => simp [Branch.AllObey, ih]

/-! ## Concurrent code -/

/-- Whether a chain of values obeys the laws. -/
def ConditionalWaveform.Obeys : ConditionalWaveform → Prop
  | .value e => e.Obeys L
  | .choose v c rest => v.Obeys L ∧ c.Obeys L ∧ rest.Obeys

/-- Whether the value of an assignment obeys the laws. -/
def Waveform.Obeys : Waveform → Prop
  | .plain e => L.waveform (.plain e) ∧ e.Obeys L
  | .conditional chain => L.waveform (.conditional chain) ∧ chain.Obeys L

/-- Whether a concurrent statement obeys the laws. -/
def ConcurrentStatement.Obeys : ConcurrentStatement → Prop
  | .assignment target value => target.Obeys L ∧ value.Obeys L
  | .comment c => L.comment c

/-- Whether a process obeys the laws. -/
def ProcessStatement.Obeys (p : ProcessStatement) : Prop :=
  L.process p ∧ (∀ i ∈ p.label, L.ident i) ∧ (∀ i ∈ p.sensitivity, L.ident i)
    ∧ (∀ s ∈ p.declarations, s.Obeys L) ∧ p.body.Obeys L

/-- Whether an actual obeys the laws. -/
def Actual.Obeys : Actual → Prop
  | .value e => e.Obeys L
  | .unconnected => True

/-- Whether an association obeys the laws. -/
def Association.Obeys (a : Association) : Prop :=
  (∀ r ∈ a.formal, r.Obeys L) ∧ a.actual.Obeys L

/-- Whether what an instance is made from obeys the laws. -/
def InstanceSource.Obeys : InstanceSource → Prop
  | .component name => L.ident name
  | .entity library name architecture =>
    L.ident library ∧ L.ident name ∧ ∀ i ∈ architecture, L.ident i

/-- Whether an instance obeys the laws. -/
def Instance.Obeys (i : Instance) : Prop :=
  L.ident i.label ∧ i.source.Obeys L ∧ (∀ a ∈ i.generics, a.Obeys L) ∧ ∀ a ∈ i.ports, a.Obeys L

mutual

/-- Whether concurrent code obeys the laws. -/
def Concurrent.Obeys : Concurrent → Prop
  | .simple s => L.concurrent (.simple s) ∧ s.Obeys L
  | .process p => L.concurrent (.process p) ∧ p.Obeys L
  | .component i => L.concurrent (.component i) ∧ i.Obeys L
  | .generate label parameter range body =>
    L.concurrent (.generate label parameter range body) ∧ L.ident label ∧ L.ident parameter
      ∧ range.Obeys L ∧ body.Obeys
  | .region elements => L.concurrent (.region elements) ∧ Concurrent.AllObey elements

/-- Whether a list of concurrent code obeys the laws. -/
def Concurrent.AllObey : List Concurrent → Prop
  | [] => True
  | c :: cs => c.Obeys ∧ Concurrent.AllObey cs

end

theorem Concurrent.allObey_iff {cs : List Concurrent} :
    Concurrent.AllObey L cs ↔ ∀ c ∈ cs, c.Obeys L := by
  induction cs with
  | nil => simp [Concurrent.AllObey]
  | cons c cs ih => simp [Concurrent.AllObey, ih]

/-! ## Declarations -/

/-- Whether a port obeys the laws. -/
def Port.Obeys (p : Port) : Prop :=
  L.port p ∧ L.ident p.name ∧ p.type.Obeys L ∧ (∀ e ∈ p.default, e.Obeys L)
    ∧ ∀ c ∈ p.comment, L.comment c

/-- Whether a generic obeys the laws. -/
def Generic.Obeys (g : Generic) : Prop :=
  L.generic g ∧ L.ident g.name ∧ g.type.Obeys L ∧ (∀ e ∈ g.default, e.Obeys L)
    ∧ ∀ c ∈ g.comment, L.comment c

/-- Whether a port clause obeys the laws. -/
def PortClause.Obeys (c : PortClause) : Prop :=
  L.portClause c ∧ ∀ p ∈ c.ports, p.Obeys L

/-- Whether a generic clause obeys the laws. -/
def GenericClause.Obeys (c : GenericClause) : Prop :=
  L.genericClause c ∧ ∀ g ∈ c.generics, g.Obeys L

/-- Whether an interface obeys the laws. -/
def Interface.Obeys (u : Interface) : Prop :=
  L.ident u.name ∧ (∀ c ∈ u.generics, c.Obeys L) ∧ ∀ c ∈ u.ports, c.Obeys L

/-- Whether a field of a record obeys the laws. -/
def RecordField.Obeys (f : RecordField) : Prop :=
  L.ident f.name ∧ f.type.Obeys L ∧ ∀ c ∈ f.comment, L.comment c

/-- Whether a declaration of a type obeys the laws. -/
def TypeDecl.Obeys : TypeDecl → Prop
  | .enumeration name values =>
    L.typeDecl (.enumeration name values) ∧ L.ident name ∧ ∀ i ∈ values, L.ident i
  | .record name fields =>
    L.typeDecl (.record name fields) ∧ L.ident name ∧ ∀ f ∈ fields, f.Obeys L
  | .array name range element =>
    L.typeDecl (.array name range element) ∧ L.ident name ∧ range.Obeys L ∧ element.Obeys L

/-- Whether a parameter obeys the laws. -/
def Parameter.Obeys (p : Parameter) : Prop :=
  L.ident p.name ∧ p.type.Obeys L

/-- Whether a signature obeys the laws. -/
def Signature.Obeys (s : Signature) : Prop :=
  L.signature s ∧ L.ident s.name ∧ (∀ p ∈ s.parameters, p.Obeys L) ∧ s.result.Obeys L

/-- Whether a function with its body obeys the laws. -/
def FunctionBody.Obeys (f : FunctionBody) : Prop :=
  f.signature.Obeys L ∧ (∀ s ∈ f.declarations, s.Obeys L) ∧ f.body.Obeys L

/-- Whether an item of a declarative part obeys the laws. -/
def Declaration.Obeys : Declaration → Prop
  | .object d => d.Obeys L
  | .comment c => L.comment c
  | .type d => d.Obeys L
  | .component c => c.Obeys L
  | .signature s => s.Obeys L
  | .function f => f.Obeys L

/-- Whether the declarative part of an architecture obeys the laws. -/
def DeclarativePart.Obeys (p : DeclarativePart) : Prop :=
  L.head p ∧ ∀ d ∈ p.items, d.Obeys L

/-! ## Units and files -/

/-- Whether an architecture obeys the laws. -/
def Architecture.Obeys (a : Architecture) : Prop :=
  L.ident a.name ∧ L.ident a.entity ∧ a.head.Obeys L ∧ a.body.Obeys L

/-- Whether a package obeys the laws. -/
def Package.Obeys (p : Package) : Prop :=
  L.package p ∧ L.ident p.name ∧ ∀ d ∈ p.items, d.Obeys L

mutual

/-- Whether the contents of a package body obey the laws. -/
def BodyItem.Obeys : BodyItem → Prop
  | .function f => L.bodyItem (.function f) ∧ f.Obeys L
  | .object d => L.bodyItem (.object d) ∧ d.Obeys L
  | .type d => L.bodyItem (.type d) ∧ d.Obeys L
  | .comment c => L.bodyItem (.comment c) ∧ L.comment c
  | .items elements => L.bodyItem (.items elements) ∧ BodyItem.AllObey elements

/-- Whether a list of contents obeys the laws. -/
def BodyItem.AllObey : List BodyItem → Prop
  | [] => True
  | i :: is => i.Obeys ∧ BodyItem.AllObey is

end

theorem BodyItem.allObey_iff {is : List BodyItem} :
    BodyItem.AllObey L is ↔ ∀ i ∈ is, i.Obeys L := by
  induction is with
  | nil => simp [BodyItem.AllObey]
  | cons i is ih => simp [BodyItem.AllObey, ih]

/-- Whether a package body obeys the laws. -/
def PackageBody.Obeys (b : PackageBody) : Prop :=
  L.ident b.name ∧ b.body.Obeys L

/-- Whether a context clause obeys the laws. -/
def ContextClause.Obeys : ContextClause → Prop
  | .library name => L.ident name
  | .use path _ => ∀ i ∈ path, L.ident i

/-- Whether a file obeys the laws. -/
def DesignFile.Obeys (f : DesignFile) : Prop :=
  (∀ c ∈ f.header, L.comment c) ∧ (∀ c ∈ f.context, c.Obeys L) ∧ (∀ p ∈ f.packages, p.Obeys L)
    ∧ (∀ b ∈ f.packageBodies, b.Obeys L) ∧ (∀ e ∈ f.entities, e.Obeys L)
    ∧ ∀ a ∈ f.architectures, a.Obeys L

end CanonicalVhdl
