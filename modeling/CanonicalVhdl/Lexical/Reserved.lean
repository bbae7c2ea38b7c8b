import CanonicalVhdl.Text.Basic

/-!
# Reserved words

The reserved words of VHDL-2008, those of its property language included.
-/

namespace CanonicalVhdl

/-- The reserved words in lower case. -/
def reservedWords : List Text :=
  ["abs", "access", "after", "alias", "all", "and", "architecture", "array", "assert", "assume",
    "attribute", "begin", "block", "body", "buffer", "bus", "case", "component", "configuration",
    "constant", "context", "cover", "default", "disconnect", "downto", "else", "elsif", "end",
    "entity", "exit", "fairness", "file", "for", "force", "function", "generate", "generic",
    "group", "guarded", "if", "impure", "in", "inertial", "inout", "is", "label", "library",
    "linkage", "literal", "loop", "map", "mod", "nand", "new", "next", "nor", "not", "null", "of",
    "on", "open", "or", "others", "out", "package", "parameter", "port", "postponed", "procedure",
    "process", "property", "protected", "pure", "range", "record", "register", "reject", "release",
    "rem", "report", "restrict", "return", "rol", "ror", "select", "sequence", "severity", "shared",
    "signal", "sla", "sll", "sra", "srl", "strong", "subtype", "then", "to", "transport", "type",
    "unaffected", "units", "until", "use", "variable", "vmode", "vprop", "vunit", "wait", "when",
    "while", "with", "xnor", "xor"].map String.toList

/-- Whether a word is reserved, in either case. -/
def isReserved (word : Text) : Bool :=
  reservedWords.contains (Text.fold word)

end CanonicalVhdl
