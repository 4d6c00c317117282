/-! Log records as values: operations return what they have to report. -/

set_option autoImplicit false

namespace HashedFeatures

inductive Level where
  | trace
  | debug
  | info
  | warn
  deriving DecidableEq, Repr

def Level.word : Level → String
  | .trace => "TRACE"
  | .debug => "DEBUG"
  | .info => "INFO"
  | .warn => "WARN"

structure Record where
  level : Level
  text : String
  deriving DecidableEq, Repr

end HashedFeatures
