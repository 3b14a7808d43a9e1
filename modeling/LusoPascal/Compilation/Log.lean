import LusoPascal.Analysis.Basic
import LusoPascal.Compilation.Failure

/-!
# The log of a compilation

* `LogLevel`: how much detail a record is;
* `LogRecord`: the things that a compilation reports, with level and text;
* `LogRecord.visible`: the records of a log up to a level.
-/

namespace LusoPascal

/-- How much detail a record is. -/
inductive LogLevel where
  | info | debug | trace
deriving DecidableEq

namespace LogLevel

/-- The place of a level in the order from least to most detail. -/
def rank : LogLevel → Nat
  | info => 1
  | debug => 2
  | trace => 3

instance : ToString LogLevel where
  toString
    | info => "INFO"
    | debug => "DEBUG"
    | trace => "TRACE"

end LogLevel

/-- What a compilation reports. -/
inductive LogRecord where
  /-- A file is about to be read. -/
  | reading (path : String)
  /-- The text is about to be parsed. -/
  | parsing
  /-- The parser consumed a token. -/
  | consumed (token : Located)
  /-- A parsed program is about to be analysed. -/
  | analysing (program : String)
  /-- The analysis took a step. -/
  | step (event : Event)
  /-- A phase failed. -/
  | failed (phase : Phase)
deriving DecidableEq

namespace LogRecord

/-- The level of a record. -/
def level : LogRecord → LogLevel
  | reading _ | parsing | analysing _ => .info
  | step _ | failed _ => .debug
  | consumed _ => .trace

/-- The text of a record. -/
def text : LogRecord → String
  | reading path => s!"Lendo {path}"
  | parsing => "Fase 1: análise léxica e sintática..."
  | consumed token => toString token
  | analysing program => s!"Fase 2: análise semântica do programa {program}..."
  | step event => toString event
  | failed phase => s!"falha na fase {phase}"

instance : ToString LogRecord where
  toString record := s!"[{record.level}] {record.text}"

/-- The records of a log up to a level. -/
def visible (verbosity : Nat) (log : List LogRecord) : List LogRecord :=
  log.filter fun record => record.level.rank ≤ verbosity

end LogRecord

end LusoPascal
