/-! Lines for a diagnostic log. A line has named fields beside its message; the reader decides
what to show. -/

namespace Coverability

inductive Level where
  | trace
  | debug
  | info
  | warn
deriving DecidableEq

structure Line where
  level : Level
  message : String
  fields : List (String × String)
deriving DecidableEq

def Level.text : Level → String
  | trace => "TRACE"
  | debug => "DEBUG"
  | info => "INFO"
  | warn => "WARN"

end Coverability
