/-!
# Log messages

What the compiler and the machine report about their work. Messages are data; nothing is written
here.
-/

namespace MiniScheme

/-- How detailed a message is. -/
inductive LogLevel where
  | debug
  | trace
  deriving DecidableEq

/-- Which part reports a message. -/
inductive LogSource where
  | compiler
  | machine
  deriving DecidableEq

structure LogMessage where
  level : LogLevel
  source : LogSource
  text : String
  deriving DecidableEq

namespace LogMessage

/-- A message of the compiler about one of its results. -/
def compilerDebug (text : String) : LogMessage :=
  ⟨.debug, .compiler, text⟩

/-- A detailed message of the compiler. -/
def compilerTrace (text : String) : LogMessage :=
  ⟨.trace, .compiler, text⟩

/-- A message of the machine about a whole run. -/
def machineDebug (text : String) : LogMessage :=
  ⟨.debug, .machine, text⟩

/-- A message of the machine about one instruction. -/
def machineTrace (text : String) : LogMessage :=
  ⟨.trace, .machine, text⟩

end LogMessage

end MiniScheme
