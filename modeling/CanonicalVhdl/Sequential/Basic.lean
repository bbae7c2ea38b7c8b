import CanonicalVhdl.Statement.Basic

/-!
# Sequential code

Regions of sequential code with their compound statements.  An `elsif` is an
alternative that consists of exactly one conditional statement.

## Main definitions

* `Choice` — what selects a branch of a `case` statement.
* `Sequential`, `Branch` — statements and regions, and the branches of `case`.
* `Sequential.text`, `Sequential.same` — canonical text and equality.
* `Sequential.elements` — the elements of a region.
-/

namespace CanonicalVhdl

open Text

/-! ## Choices -/

/-- What selects a branch of a `case` statement. -/
inductive Choice where
  /-- A value. -/
  | value (e : Expr)
  /-- A range of values. -/
  | range (r : Range)
  /-- Several choices. -/
  | alternatives (choices : List Choice)
  /-- Every value not chosen otherwise. -/
  | others

namespace Choice

mutual

/-- The canonical text. -/
def text : Choice → Text
  | value e => e.text
  | range r => r.text
  | alternatives choices => join " | ".toList (texts choices)
  | others => "others".toList

/-- The canonical texts of a list of choices. -/
def texts : List Choice → List Text
  | [] => []
  | c :: cs => c.text :: texts cs

end

mutual

/-- Equality up to the case of identifiers. -/
def same : Choice → Choice → Bool
  | value a, value b => a.same b
  | range a, range b => a.same b
  | alternatives as, alternatives bs => sameAll as bs
  | others, others => true
  | _, _ => false
termination_by structural x _ => x

/-- Equality of lists up to the case of identifiers. -/
def sameAll : List Choice → List Choice → Bool
  | [], [] => true
  | a :: as, b :: bs => a.same b && sameAll as bs
  | _, _ => false
termination_by structural x _ => x

end

end Choice

/-! ## Statements and regions -/

mutual

/-- Sequential code: one statement, or a region of none or several. -/
inductive Sequential where
  /-- A simple statement. -/
  | simple (s : Statement)
  /-- A conditional statement. -/
  | conditional (condition : Expr) (body : Sequential) (otherwise : Option Sequential)
  /-- A `case` statement. -/
  | selection (selector : Expr) (branches : List Branch)
  /-- A `for` loop. -/
  | loop (parameter : Ident) (range : Range) (body : Sequential)
  /-- Elements in order. -/
  | region (elements : List Sequential)

/-- A branch of a `case` statement. -/
inductive Branch where
  | mk (choice : Choice) (body : Sequential)

end

namespace Sequential

/-- A comment line. -/
def comment (c : Comment) : Sequential := simple (.comment c)

/-- The elements in order. -/
def elements : Sequential → List Sequential
  | region elements => elements
  | single => [single]

/-- The code with the given elements; a single element stands for itself. -/
def ofElements : List Sequential → Sequential
  | [single] => single
  | several => region several

/-- The condition of the first `elsif` of a conditional statement. -/
def elsif? : Sequential → Option Expr
  | conditional _ _ (some (conditional c _ _)) => some c
  | _ => none

/-- Whether the code is a conditional statement. -/
def isConditional : Sequential → Bool
  | conditional .. => true
  | _ => false

/-- Whether the code is a `case` statement. -/
def isSelection : Sequential → Bool
  | selection .. => true
  | _ => false

/-- Whether the code is a `for` loop. -/
def isLoop : Sequential → Bool
  | loop .. => true
  | _ => false

end Sequential

/-! ## Canonical text -/

mutual

/-- The canonical text of sequential code. -/
def Sequential.text : Sequential → Text
  | .simple s => s.text
  | .conditional condition body otherwise =>
    "if ".toList ++ condition.text ++ " then".toList ++ nested body.text
      ++ Sequential.alternativeText otherwise ++ "\nend if;".toList
  | .selection selector branches =>
    "case ".toList ++ selector.text ++ " is".toList
      ++ nested (join ['\n'] (Branch.texts branches)) ++ "\nend case;".toList
  | .loop parameter range body =>
    "for ".toList ++ parameter.text ++ " in ".toList ++ range.text ++ " loop".toList
      ++ nested body.text ++ "\nend loop;".toList
  | .region elements => join ['\n'] (Sequential.texts elements)

/-- The canonical text of the alternative of a conditional statement. -/
def Sequential.alternativeText : Option Sequential → Text
  | none => []
  | some (.conditional condition body otherwise) =>
    "\nelsif ".toList ++ condition.text ++ " then".toList ++ nested body.text
      ++ Sequential.alternativeText otherwise
  | some other => "\nelse".toList ++ nested other.text

/-- The canonical texts of a list of elements. -/
def Sequential.texts : List Sequential → List Text
  | [] => []
  | s :: ss => s.text :: Sequential.texts ss

/-- The canonical text of a branch. -/
def Branch.text : Branch → Text
  | .mk choice body => "when ".toList ++ choice.text ++ " =>".toList ++ nested body.text

/-- The canonical texts of a list of branches. -/
def Branch.texts : List Branch → List Text
  | [] => []
  | b :: bs => b.text :: Branch.texts bs

end

/-! ## Equality -/

mutual

/-- Equality of sequential code up to the case of identifiers. -/
def Sequential.same : Sequential → Sequential → Bool
  | .simple a, .simple b => a.same b
  | .conditional c b o, .conditional c' b' o' =>
    c.same c' && b.same b' && Sequential.same? o o'
  | .selection s bs, .selection s' bs' => s.same s' && Branch.sameAll bs bs'
  | .loop p r b, .loop p' r' b' => p.same p' && r.same r' && b.same b'
  | .region as, .region bs => Sequential.sameAll as bs
  | _, _ => false
termination_by structural x _ => x

/-- Equality of optional sequential code. -/
def Sequential.same? : Option Sequential → Option Sequential → Bool
  | none, none => true
  | some a, some b => a.same b
  | _, _ => false
termination_by structural x _ => x

/-- Equality of lists of sequential code. -/
def Sequential.sameAll : List Sequential → List Sequential → Bool
  | [], [] => true
  | a :: as, b :: bs => a.same b && Sequential.sameAll as bs
  | _, _ => false
termination_by structural x _ => x

/-- Equality of branches. -/
def Branch.same : Branch → Branch → Bool
  | .mk c b, .mk c' b' => c.same c' && b.same b'
termination_by structural x _ => x

/-- Equality of lists of branches. -/
def Branch.sameAll : List Branch → List Branch → Bool
  | [], [] => true
  | a :: as, b :: bs => a.same b && Branch.sameAll as bs
  | _, _ => false
termination_by structural x _ => x

end

end CanonicalVhdl
