import LusoPascal.Scope.Symbol

/-!
# Semantic errors

A program whose names do not fit together is rejected at the first place that its analysis visits.

* `Violation`: the rules of naming and calling that a program can break;
* `SemanticError`: a broken rule and the line, with the wording.
-/

namespace LusoPascal

/-- The rules that a program can break. -/
inductive Violation where
  | redeclaredProcedure (name : String)
  | redeclaredVariable (name : String)
  | unknownVariable (name : String)
  | unknownProcedure (name : String)
  | unknownType (name : String)
  | notProcedure (name : String)
  | argumentCount (name : String) (expected found : Nat)
  | argumentType (procedure argument : String) (expected found : BaseType)
  | argumentNotVariable (procedure argument : String)
deriving DecidableEq

/-- A broken rule and the line of the declaration, reference or call that breaks it. -/
structure SemanticError where
  violation : Violation
  line : Nat
deriving DecidableEq

/-- The wording of a semantic error. -/
def SemanticError.message (error : SemanticError) : String :=
  match error.violation with
  | .redeclaredProcedure name =>
    s!"Declaração duplicada de procedimento \"{name}\" na linha {error.line}"
  | .redeclaredVariable name =>
    s!"Declaração duplicada da variável \"{name}\" na linha {error.line}"
  | .unknownVariable name =>
    s!"Variável \"{name}\" não existe nas declarações (linha {error.line})"
  | .unknownProcedure name =>
    s!"Procedimento \"{name}\" não existe nas declarações (linha {error.line})"
  | .unknownType name =>
    s!"Tipo \"{name}\" não existe nas declarações (linha {error.line})"
  | .notProcedure name =>
    s!"\"{name}\" não é um procedimento (linha {error.line})"
  | .argumentCount name expected found =>
    s!"Procedimento \"{name}\" espera {expected} argumento(s) mas recebeu {found} "
      ++ s!"(linha {error.line})"
  | .argumentType procedure argument expected found =>
    s!"Argumento \"{argument}\" de \"{procedure}\" deveria ser {expected} mas é {found} "
      ++ s!"(linha {error.line})"
  | .argumentNotVariable procedure argument =>
    s!"Argumento \"{argument}\" de \"{procedure}\" não é uma variável (linha {error.line})"

end LusoPascal
