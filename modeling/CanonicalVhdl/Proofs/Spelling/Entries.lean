import CanonicalVhdl.Design.File
import CanonicalVhdl.Proofs.Spelling.Items

/-!
# The entries of trees

Every tree has the words and marks of its canonical text as entries.  Names and comments
are the tree's own; the second mention of a name, names with a meaning of their own, and
literals follow from the tree.

## Main definitions

* `Expr.entries`, `Sequential.entries`, `Concurrent.entries`, `DesignFile.entries` and
  others — the entries of trees.
-/

namespace CanonicalVhdl

open Text

/-! ## Expressions -/

/-- The entry of an identifier. -/
def Ident.entries (i : Ident) : List Entry := owned i.text

mutual

/-- The entries of an expression. -/
def Expr.entries : Expr → List Entry
  | .reference r => r.entries
  | .literal l => l.entries
  | .arith lhs op rhs => lhs.entries ++ (fixed op.symbol.toList ++ rhs.entries)
  | .group inner => inner.entries
  | .compare lhs _ rhs => lhs.entries ++ rhs.entries
  | .edge kind signal => fixed kind.name.toList ++ signal.entries
  | .negation operand => operand.entries
  | .logic lhs _ rhs => lhs.entries ++ rhs.entries
  | .convert kind value => fixed kind.name.toList ++ value.entries
  | .call name arguments => name.entries ++ Argument.entriesAll arguments
termination_by structural x => x

/-- The entries of an argument. -/
def Argument.entries : Argument → List Entry
  | .mk none value => value.entries
  | .mk (some parameter) value => parameter.entries ++ value.entries
termination_by structural x => x

/-- The entries of arguments. -/
def Argument.entriesAll : List Argument → List Entry
  | [] => []
  | a :: as => a.entries ++ Argument.entriesAll as
termination_by structural x => x

/-- The entries of a reference. -/
def Reference.entries : Reference → List Entry
  | .name n => n.entries
  | .member record member => record.entries ++ member.entries
  | .indexed name index => name.entries ++ index.entries
  | .attributeOf object designator => object.entries ++ fixed designator
termination_by structural x => x

/-- The entries of an index. -/
def Index.entries : Index → List Entry
  | .position value => value.entries
  | .slice range => range.entries
  | .others => []
termination_by structural x => x

/-- The entries of a range. -/
def Range.entries : Range → List Entry
  | .ascending low high => low.entries ++ high.entries
  | .descending high low => high.entries ++ low.entries
termination_by structural x => x

/-- The entries of a literal. -/
def Literal.entries : Literal → List Entry
  | .bit value => fixed (tickedText value.char)
  | .boolean value => fixed (if value then "true" else "false").toList
  | .real value => [.real value.text]
  | .integer value => fixed value.text
  | .logic value => fixed (tickedText value.char)
  | .vector value => value.entries
termination_by structural x => x

/-- The entries of a vector literal. -/
def VectorLiteral.entries : VectorLiteral → List Entry
  | .bits values => fixed (quotedText [] (values.map Bit.char))
  | .logics values => fixed (quotedText [] (values.map Logic.char))
  | .hexadecimal digits => fixed (quotedText ['x'] (digits.map HexDigit.char))
  | .octal digits => fixed (quotedText ['o'] (digits.map OctalDigit.char))
  | .aggregate elements => Element.entriesAll elements
termination_by structural x => x

/-- The entries of an element of an aggregate. -/
def Element.entries : Element → List Entry
  | .mk index value => index.entries ++ value.entries
termination_by structural x => x

/-- The entries of elements. -/
def Element.entriesAll : List Element → List Entry
  | [] => []
  | e :: es => e.entries ++ Element.entriesAll es
termination_by structural x => x

end

theorem Argument.entriesAll_eq (as : List Argument) :
    Argument.entriesAll as = as.flatMap Argument.entries := by
  induction as with
  | nil => rfl
  | cons a as ih => rw [Argument.entriesAll, ih, List.flatMap_cons]

theorem Element.entriesAll_eq (es : List Element) :
    Element.entriesAll es = es.flatMap Element.entries := by
  induction es with
  | nil => rfl
  | cons e es ih => rw [Element.entriesAll, ih, List.flatMap_cons]

/-! ## Types and objects -/

/-- The entries of a built-in type. -/
def BuiltinType.entries : BuiltinType → List Entry
  | scalar kind => fixed kind.name.toList
  | vector kind range => fixed kind.name.toList ++ range.entries
  | integerRange range => fixed "integer".toList ++ range.entries

/-- The entries of a type. -/
def TypeMark.entries : TypeMark → List Entry
  | builtin type => type.entries
  | named name => name.entries

/-- The entries of a comment. -/
def Comment.entries (c : Comment) : List Entry := owned c.line

/-- The entries of an optional part. -/
def optionalEntries {α : Type} (entries : α → List Entry) (part : Option α) : List Entry :=
  part.elim [] entries

/-- The entries of a declaration of an object. -/
def ObjectDecl.entries (d : ObjectDecl) : List Entry :=
  d.name.entries ++ d.type.entries ++ optionalEntries Expr.entries d.default
    ++ optionalEntries Comment.entries d.comment

/-! ## Sequential code -/

/-- The entries of a simple statement. -/
def Statement.entries : Statement → List Entry
  | declaration d => d.entries
  | assignment target _ value => target.entries ++ value.entries
  | comment c => c.entries
  | null => []
  | result value => optionalEntries Expr.entries value

mutual

/-- The entries of a choice. -/
def Choice.entries : Choice → List Entry
  | .value e => e.entries
  | .range r => r.entries
  | .alternatives choices => Choice.entriesAll choices
  | .others => []
termination_by structural x => x

/-- The entries of choices. -/
def Choice.entriesAll : List Choice → List Entry
  | [] => []
  | c :: cs => c.entries ++ Choice.entriesAll cs
termination_by structural x => x

end

theorem Choice.entriesAll_eq (cs : List Choice) :
    Choice.entriesAll cs = cs.flatMap Choice.entries := by
  induction cs with
  | nil => rfl
  | cons c cs ih => rw [Choice.entriesAll, ih, List.flatMap_cons]

mutual

/-- The entries of sequential code. -/
def Sequential.entries : Sequential → List Entry
  | .simple s => s.entries
  | .conditional condition body otherwise =>
    condition.entries ++ body.entries ++ Sequential.entries? otherwise
  | .selection selector branches => selector.entries ++ Branch.entriesAll branches
  | .loop parameter range body => parameter.entries ++ range.entries ++ body.entries
  | .region elements => Sequential.entriesAll elements
termination_by structural x => x

/-- The entries of optional sequential code. -/
def Sequential.entries? : Option Sequential → List Entry
  | none => []
  | some s => s.entries
termination_by structural x => x

/-- The entries of elements of a region. -/
def Sequential.entriesAll : List Sequential → List Entry
  | [] => []
  | s :: ss => s.entries ++ Sequential.entriesAll ss
termination_by structural x => x

/-- The entries of a branch. -/
def Branch.entries : Branch → List Entry
  | .mk choice body => choice.entries ++ body.entries
termination_by structural x => x

/-- The entries of branches. -/
def Branch.entriesAll : List Branch → List Entry
  | [] => []
  | b :: bs => b.entries ++ Branch.entriesAll bs
termination_by structural x => x

end

theorem Sequential.entriesAll_eq (ss : List Sequential) :
    Sequential.entriesAll ss = ss.flatMap Sequential.entries := by
  induction ss with
  | nil => rfl
  | cons s ss ih => rw [Sequential.entriesAll, ih, List.flatMap_cons]

theorem Branch.entriesAll_eq (bs : List Branch) :
    Branch.entriesAll bs = bs.flatMap Branch.entries := by
  induction bs with
  | nil => rfl
  | cons b bs ih => rw [Branch.entriesAll, ih, List.flatMap_cons]

/-! ## Concurrent code -/

/-- The entries of a chain of values with conditions. -/
def ConditionalWaveform.entries : ConditionalWaveform → List Entry
  | value e => e.entries
  | choose v c rest => v.entries ++ c.entries ++ rest.entries

/-- The entries of the value of a concurrent assignment. -/
def Waveform.entries : Waveform → List Entry
  | plain e => e.entries
  | conditional chain => chain.entries

/-- The entries of a simple concurrent statement. -/
def ConcurrentStatement.entries : ConcurrentStatement → List Entry
  | assignment target value => target.entries ++ value.entries
  | comment c => c.entries

/-- The entries of a process.  Its label is mentioned again at its end. -/
def ProcessStatement.entries (p : ProcessStatement) : List Entry :=
  optionalEntries Ident.entries p.label ++ p.sensitivity.flatMap Ident.entries
    ++ p.declarations.flatMap Statement.entries ++ p.body.entries
    ++ optionalEntries (fun label => fixed label.text) p.label

/-- The entries of an actual. -/
def Actual.entries : Actual → List Entry
  | value e => e.entries
  | unconnected => []

/-- The entries of an association. -/
def Association.entries (a : Association) : List Entry :=
  optionalEntries Reference.entries a.formal ++ a.actual.entries

/-- The entries of what an instance is made from. -/
def InstanceSource.entries : InstanceSource → List Entry
  | component name => name.entries
  | entity library name architecture =>
    fixed "entity".toList ++ library.entries ++ name.entries
      ++ optionalEntries Ident.entries architecture

/-- The entries of an instance. -/
def Instance.entries (i : Instance) : List Entry :=
  i.label.entries ++ i.source.entries ++ i.generics.flatMap Association.entries
    ++ i.ports.flatMap Association.entries

mutual

/-- The entries of concurrent code.  The label of a generated region is mentioned again
at its end. -/
def Concurrent.entries : Concurrent → List Entry
  | .simple s => s.entries
  | .process p => p.entries
  | .component i => i.entries
  | .generate label parameter range body =>
    label.entries ++ parameter.entries ++ range.entries ++ body.entries ++ fixed label.text
  | .region elements => Concurrent.entriesAll elements
termination_by structural x => x

/-- The entries of elements of a region. -/
def Concurrent.entriesAll : List Concurrent → List Entry
  | [] => []
  | c :: cs => c.entries ++ Concurrent.entriesAll cs
termination_by structural x => x

end

theorem Concurrent.entriesAll_eq (cs : List Concurrent) :
    Concurrent.entriesAll cs = cs.flatMap Concurrent.entries := by
  induction cs with
  | nil => rfl
  | cons c cs ih => rw [Concurrent.entriesAll, ih, List.flatMap_cons]

/-! ## Declarations -/

/-- The entries of a field of a record. -/
def RecordField.entries (f : RecordField) : List Entry :=
  f.name.entries ++ f.type.entries ++ optionalEntries Comment.entries f.comment

/-- The entries of a declaration of a type.  The name of a record is mentioned again at
its end. -/
def TypeDecl.entries : TypeDecl → List Entry
  | enumeration name values => name.entries ++ values.flatMap Ident.entries
  | record name fields => name.entries ++ fields.flatMap RecordField.entries ++ fixed name.text
  | array name range element => name.entries ++ range.entries ++ element.entries

/-- The entries of a parameter. -/
def Parameter.entries (p : Parameter) : List Entry :=
  p.name.entries ++ p.type.entries

/-- The entries of a signature. -/
def Signature.entries (s : Signature) : List Entry :=
  s.name.entries ++ s.parameters.flatMap Parameter.entries ++ s.result.entries

/-- The entries of a function with its body.  Its name is mentioned again at its end. -/
def FunctionBody.entries (f : FunctionBody) : List Entry :=
  f.signature.entries ++ f.declarations.flatMap Statement.entries ++ f.body.entries
    ++ fixed f.signature.name.text

/-- The entries of a port. -/
def Port.entries (p : Port) : List Entry :=
  p.name.entries ++ p.type.entries ++ optionalEntries Expr.entries p.default
    ++ optionalEntries Comment.entries p.comment

/-- The entries of a generic. -/
def Generic.entries (g : Generic) : List Entry :=
  g.name.entries ++ g.type.entries ++ optionalEntries Expr.entries g.default
    ++ optionalEntries Comment.entries g.comment

/-- The entries of an entity or a component declaration, by its keyword.  The keyword
and the name are mentioned again at the end. -/
def Interface.entriesAs (keyword : Text) (u : Interface) : List Entry :=
  fixed keyword ++ u.name.entries
    ++ optionalEntries (fun c => c.generics.flatMap Generic.entries) u.generics
    ++ optionalEntries (fun c => c.ports.flatMap Port.entries) u.ports
    ++ (fixed keyword ++ fixed u.name.text)

/-- The entries of an item of a declarative part. -/
def Declaration.entries : Declaration → List Entry
  | object d => d.entries
  | comment c => c.entries
  | type d => d.entries
  | component c => c.entriesAs "component".toList
  | signature s => s.entries
  | function f => f.entries

mutual

/-- The entries of the contents of a package body. -/
def BodyItem.entries : BodyItem → List Entry
  | .function f => f.entries
  | .object d => d.entries
  | .type d => d.entries
  | .comment c => c.entries
  | .items elements => BodyItem.entriesAll elements
termination_by structural x => x

/-- The entries of items. -/
def BodyItem.entriesAll : List BodyItem → List Entry
  | [] => []
  | i :: is => i.entries ++ BodyItem.entriesAll is
termination_by structural x => x

end

theorem BodyItem.entriesAll_eq (is : List BodyItem) :
    BodyItem.entriesAll is = is.flatMap BodyItem.entries := by
  induction is with
  | nil => rfl
  | cons i is ih => rw [BodyItem.entriesAll, ih, List.flatMap_cons]

/-! ## Design units -/

/-- The entries of a context clause. -/
def ContextClause.entries : ContextClause → List Entry
  | library name => fixed "library".toList ++ name.entries
  | use path _ => fixed "use".toList ++ path.flatMap Ident.entries

/-- The entries of an architecture. -/
def Architecture.entries (a : Architecture) : List Entry :=
  fixed "architecture".toList ++ a.name.entries ++ a.entity.entries
    ++ a.head.items.flatMap Declaration.entries ++ a.body.entries
    ++ (fixed "architecture".toList ++ fixed a.name.text)

/-- The entries of a package. -/
def Package.entries (p : Package) : List Entry :=
  fixed "package".toList ++ p.name.entries ++ p.items.flatMap Declaration.entries
    ++ (fixed "package".toList ++ fixed p.name.text)

/-- The entries of a package body. -/
def PackageBody.entries (b : PackageBody) : List Entry :=
  fixed "package body".toList ++ b.name.entries ++ b.body.entries
    ++ (fixed "package body".toList ++ fixed b.name.text)

/-- The entries of a unit of a file. -/
def DesignUnit.entries : DesignUnit → List Entry
  | comment c => c.entries
  | context c => c.entries
  | package p => p.entries
  | packageBody b => b.entries
  | entity e => e.entriesAs "entity".toList
  | architecture a => a.entries

/-- The entries of a file. -/
def DesignFile.entries (f : DesignFile) : List Entry :=
  f.header.flatMap Comment.entries ++ f.context.flatMap ContextClause.entries
    ++ f.packages.flatMap Package.entries ++ f.packageBodies.flatMap PackageBody.entries
    ++ f.entities.flatMap (·.entriesAs "entity".toList)
    ++ f.architectures.flatMap Architecture.entries

end CanonicalVhdl
