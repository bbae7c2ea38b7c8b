import CanonicalVhdl.Sequential.Basic

/-!
# Concurrent code

Regions of concurrent code: assignments, processes, instances and generated
regions.

## Main definitions

* `Waveform`, `ConditionalWaveform` — the values of concurrent assignments.
* `ProcessStatement`, `Instance`, `Association` — processes and instances.
* `Concurrent` — statements and regions.
* `Concurrent.text`, `Concurrent.same` — canonical text and equality.
-/

namespace CanonicalVhdl

open Text

/-! ## Assignments -/

/-- A chain of values with conditions. -/
inductive ConditionalWaveform where
  /-- The last value, which has no condition. -/
  | value (e : Expr)
  /-- A value, its condition, and the rest of the chain. -/
  | choose (value : Expr) (condition : Expr) (otherwise : ConditionalWaveform)

namespace ConditionalWaveform

/-- The canonical text. -/
def text : ConditionalWaveform → Text
  | value e => e.text
  | choose v c rest => v.text ++ " when ".toList ++ c.text ++ " else ".toList ++ rest.text

/-- Equality up to the case of identifiers. -/
def same : ConditionalWaveform → ConditionalWaveform → Bool
  | value a, value b => a.same b
  | choose v c rest, choose v' c' rest' => v.same v' && c.same c' && rest.same rest'
  | _, _ => false

end ConditionalWaveform

/-- The value of a concurrent assignment. -/
inductive Waveform where
  /-- A plain value. -/
  | plain (e : Expr)
  /-- A chain of values with conditions. -/
  | conditional (chain : ConditionalWaveform)

namespace Waveform

/-- The canonical text. -/
def text : Waveform → Text
  | plain e => e.text
  | conditional chain => chain.text

/-- Equality up to the case of identifiers. -/
def same : Waveform → Waveform → Bool
  | plain a, plain b => a.same b
  | conditional a, conditional b => a.same b
  | _, _ => false

end Waveform

/-- A simple concurrent statement. -/
inductive ConcurrentStatement where
  /-- An assignment. -/
  | assignment (target : Reference) (value : Waveform)
  /-- A comment line. -/
  | comment (c : Comment)

namespace ConcurrentStatement

/-- The canonical text. -/
def text : ConcurrentStatement → Text
  | assignment target value => target.text ++ " <= ".toList ++ value.text ++ [';']
  | comment c => c.line

/-- Equality up to the case of identifiers. -/
def same : ConcurrentStatement → ConcurrentStatement → Bool
  | assignment t v, assignment t' v' => t.same t' && v.same v'
  | comment a, comment b => a == b
  | _, _ => false

end ConcurrentStatement

/-! ## Processes -/

/-- A process. -/
structure ProcessStatement where
  /-- The label. -/
  label : Option Ident
  /-- The signals that the process is sensitive to. -/
  sensitivity : List Ident
  /-- The declarations and comment lines before `begin`. -/
  declarations : List Statement
  /-- The sequential body. -/
  body : Sequential

namespace ProcessStatement

/-- The canonical text. -/
def text (p : ProcessStatement) : Text :=
  (p.label.elim [] fun label => label.text ++ ": ".toList) ++ "process".toList
    ++ (if p.sensitivity.isEmpty then []
      else '(' :: (join ", ".toList (p.sensitivity.map (·.text)) ++ [')']))
    ++ nested (join ['\n'] (p.declarations.map (·.text)))
    ++ "\nbegin".toList ++ nested p.body.text ++ "\nend process".toList
    ++ (p.label.elim [] fun label => ' ' :: label.text) ++ [';']

/-- Equality up to the case of identifiers. -/
def same (p q : ProcessStatement) : Bool :=
  sameIdent? p.label q.label && Ident.sameAll p.sensitivity q.sensitivity
    && Statement.sameAll p.declarations q.declarations && p.body.same q.body

end ProcessStatement

/-! ## Instances -/

/-- What a formal is associated with. -/
inductive Actual where
  /-- A value. -/
  | value (e : Expr)
  /-- Nothing. -/
  | unconnected

namespace Actual

/-- The canonical text. -/
def text : Actual → Text
  | value e => e.text
  | unconnected => "open".toList

/-- Equality up to the case of identifiers. -/
def same : Actual → Actual → Bool
  | value a, value b => a.same b
  | unconnected, unconnected => true
  | _, _ => false

end Actual

/-- An association of a generic or port map, by name or by position. -/
structure Association where
  /-- The formal, unless the association is by position. -/
  formal : Option Reference
  /-- The actual. -/
  actual : Actual

namespace Association

/-- The canonical text. -/
def text (a : Association) : Text :=
  match a.formal with
  | none => a.actual.text
  | some formal => formal.text ++ " => ".toList ++ a.actual.text

/-- Equality up to the case of identifiers. -/
def same (a b : Association) : Bool :=
  (match a.formal, b.formal with
    | none, none => true
    | some r, some s => r.same s
    | _, _ => false) && a.actual.same b.actual

/-- Equality of lists up to the case of identifiers. -/
def sameAll : List Association → List Association → Bool
  | [], [] => true
  | a :: as, b :: bs => a.same b && sameAll as bs
  | _, _ => false

end Association

/-- What an instance is made from. -/
inductive InstanceSource where
  /-- A declared component. -/
  | component (name : Ident)
  /-- An entity of a library, and perhaps one of its architectures. -/
  | entity (library : Ident) (name : Ident) (architecture : Option Ident)

namespace InstanceSource

/-- The canonical text. -/
def text : InstanceSource → Text
  | component name => "component ".toList ++ name.text
  | entity library name architecture =>
    "entity ".toList ++ library.text ++ '.' :: (name.text
      ++ architecture.elim [] fun a => '(' :: (a.text ++ [')']))

/-- Equality up to the case of identifiers. -/
def same : InstanceSource → InstanceSource → Bool
  | component a, component b => a.same b
  | entity l n a, entity l' n' a' => l.same l' && n.same n' && sameIdent? a a'
  | _, _ => false

end InstanceSource

/-- An instance of a component or an entity. -/
structure Instance where
  /-- The label. -/
  label : Ident
  /-- What the instance is made from. -/
  source : InstanceSource
  /-- The generic map. -/
  generics : List Association
  /-- The port map. -/
  ports : List Association

namespace Instance

/-- The canonical text of a map; an empty one is left out. -/
def mapText (keyword : Text) (associations : List Association) : Text :=
  if associations.isEmpty then []
  else
    let entries := associations.map fun a => indentStep ++ indentStep ++ a.text
    '\n' :: (indentStep ++ keyword ++ " map (\n".toList ++ join ",\n".toList entries
      ++ '\n' :: (indentStep ++ [')']))

/-- The canonical text. -/
def text (i : Instance) : Text :=
  i.label.text ++ ": ".toList ++ i.source.text ++ mapText "generic".toList i.generics
    ++ mapText "port".toList i.ports ++ [';']

/-- Equality up to the case of identifiers. -/
def same (i j : Instance) : Bool :=
  i.label.same j.label && i.source.same j.source && Association.sameAll i.generics j.generics
    && Association.sameAll i.ports j.ports

end Instance

/-! ## Statements and regions -/

/-- Concurrent code: one statement, or a region of none or several. -/
inductive Concurrent where
  /-- A simple statement. -/
  | simple (s : ConcurrentStatement)
  /-- A process. -/
  | process (p : ProcessStatement)
  /-- An instance. -/
  | component (i : Instance)
  /-- A region that is repeated over a range. -/
  | generate (label : Ident) (parameter : Ident) (range : Range) (body : Concurrent)
  /-- Elements in order. -/
  | region (elements : List Concurrent)

namespace Concurrent

/-- A comment line. -/
def comment (c : Comment) : Concurrent := simple (.comment c)

/-- The elements in order. -/
def elements : Concurrent → List Concurrent
  | region elements => elements
  | single => [single]

/-- The code with the given elements; a single element stands for itself. -/
def ofElements : List Concurrent → Concurrent
  | [single] => single
  | several => region several

/-- Whether the code is a generated region. -/
def isGenerate : Concurrent → Bool
  | generate .. => true
  | _ => false

mutual

/-- The canonical text. -/
def text : Concurrent → Text
  | simple s => s.text
  | process p => p.text
  | component i => i.text
  | generate label parameter range body =>
    label.text ++ ": for ".toList ++ parameter.text ++ " in ".toList ++ range.text
      ++ " generate".toList ++ nested body.text ++ "\nend generate ".toList ++ label.text ++ [';']
  | region elements => join ['\n'] (texts elements)

/-- The canonical texts of a list of elements. -/
def texts : List Concurrent → List Text
  | [] => []
  | c :: cs => c.text :: texts cs

end

mutual

/-- Equality up to the case of identifiers. -/
def same : Concurrent → Concurrent → Bool
  | simple a, simple b => a.same b
  | process a, process b => a.same b
  | component a, component b => a.same b
  | generate l p r b, generate l' p' r' b' =>
    l.same l' && p.same p' && r.same r' && b.same b'
  | region as, region bs => sameAll as bs
  | _, _ => false
termination_by structural x _ => x

/-- Equality of lists up to the case of identifiers. -/
def sameAll : List Concurrent → List Concurrent → Bool
  | [], [] => true
  | a :: as, b :: bs => a.same b && sameAll as bs
  | _, _ => false
termination_by structural x _ => x

end

end Concurrent
end CanonicalVhdl
