/-!
# Log records

What loading and flattening report while they work.
-/

namespace NestedStyles

/-- How much a record matters. -/
inductive Level
  | debug
  | trace
deriving DecidableEq, Repr

def Level.name : Level → String
  | debug => "DEBUG"
  | trace => "TRACE"

/-- What is reported: a sheet was loaded, a rule was written, a whole sheet was flattened. -/
inductive Record
  | loaded (groups : Nat)
  | rule (selector : String) (declarations : Nat)
  | flattened (groups bytes : Nat)
deriving DecidableEq, Repr

namespace Record

/-- A rule is a detail, a sheet is not. -/
def level : Record → Level
  | loaded _ | flattened _ _ => .debug
  | rule _ _ => .trace

def message : Record → String
  | loaded groups => s!"loaded style tree with {groups} rule group(s)"
  | rule selector declarations => s!"rule `{selector}` with {declarations} declaration(s)"
  | flattened groups bytes => s!"compiled {groups} rule group(s) into {bytes} byte(s) of CSS"

end Record
end NestedStyles
