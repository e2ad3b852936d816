/-!
# Notices

The library reports what it does as values, which a caller may show or drop. A
notice has a level and a text; nothing depends on whether anyone reads it.
-/

namespace GrammarSearch

/-- How much detail a notice gives. -/
inductive Notice.Level
  | debug
  | trace
deriving DecidableEq

/-- A report of one event. -/
structure Notice where
  level : Notice.Level
  text : String
deriving DecidableEq

/-- The name of a level. -/
def Notice.Level.name : Notice.Level → String
  | .debug => "DEBUG"
  | .trace => "TRACE"

/-- A notice on one line, its level first. -/
def Notice.line (n : Notice) : String :=
  n.level.name ++ " " ++ n.text

end GrammarSearch
