/-!
Log lines.
-/

namespace Overseer

inductive Level where
  | error
  | warn
  | info
  | debug
  deriving DecidableEq, Repr

structure LogLine where
  level : Level
  text : String
  deriving DecidableEq, Repr

end Overseer
