import Lox.Token

/-!
# Complaints about syntax

A complaint is a token that does not fit and the reason. The reasons are listed here, with the one
place that gives each its wording.
-/

namespace Lox.Grammar

/-- What a named function is: declared by itself or in a class. -/
inductive Callable where
  /-- A function. -/
  | function
  /-- A method of a class. -/
  | method
deriving DecidableEq, Repr

/-- The word for a named function. -/
def Callable.word : Callable → String
  | .function => "function"
  | .method => "method"

/-- Why a token does not fit. Most reasons name the part of a program that is missing. -/
inductive Reason where
  | className | superclassName | classStart | classEnd
  | callableName (sort : Callable) | parametersStart (sort : Callable) | bodyStart (sort : Callable)
  | lambdaStart | parameterName | parametersEnd | tooManyParameters
  | variableName | declarationEnd
  | forStart | forConditionEnd | forEnd | ifStart | ifEnd | whileStart | whileEnd
  | printEnd | expressionEnd | resultEnd | blockEnd
  | assignmentTarget | propertyName | indexEnd | argumentsEnd | tooManyArguments
  | superDot | superMethod | expression | groupingEnd | elementsEnd
  | propertyKey | propertyColon | entriesEnd
deriving DecidableEq, Repr

/-- The message for a reason. -/
def Reason.message : Reason → String
  | .className => "Expect class name."
  | .superclassName => "Expect superclass name."
  | .classStart => "Expect '\x7b' before class body."
  | .classEnd => "Expect '\x7d' after class body."
  | .callableName sort => "Expect " ++ sort.word ++ " name."
  | .parametersStart sort => "Expect '(' after " ++ sort.word ++ " name."
  | .bodyStart sort => "Expect '\x7b' before " ++ sort.word ++ " body."
  | .lambdaStart => "Expect '(' after 'fun'."
  | .parameterName => "Expect parameter name."
  | .parametersEnd => "Expect ')' after parameters."
  | .tooManyParameters => "Can't have more than 255 parameters."
  | .variableName => "Expect variable name."
  | .declarationEnd => "Expect ';' after variable declaration."
  | .forStart => "Expect '(' after 'for'."
  | .forConditionEnd => "Expect ';' after loop condition."
  | .forEnd => "Expect ')' after for clauses."
  | .ifStart => "Expect '(' after 'if'."
  | .ifEnd => "Expect ')' after if condition."
  | .whileStart => "Expect '(' after 'while'."
  | .whileEnd => "Expect ')' after condition."
  | .printEnd => "Expect ';' after value."
  | .expressionEnd => "Expect ';' after expression."
  | .resultEnd => "Expect ';' after return value."
  | .blockEnd => "Expect '\x7d' after block."
  | .assignmentTarget => "Invalid assignment target."
  | .propertyName => "Expect property name after '.'."
  | .indexEnd => "Expect ']' after index."
  | .argumentsEnd => "Expect ')' after arguments."
  | .tooManyArguments => "Can't have more than 255 arguments."
  | .superDot => "Expect '.' after 'super'."
  | .superMethod => "Expect superclass method name."
  | .expression => "Expect expression."
  | .groupingEnd => "Expect ')' after expression."
  | .elementsEnd => "Expect ']' after array elements."
  | .propertyKey => "Expect property key."
  | .propertyColon => "Expect ':' after property key."
  | .entriesEnd => "Expect '\x7d' after object literal."

/-- A token that does not fit, and why. -/
structure Complaint where
  /-- The token. -/
  token : Token
  /-- The reason. -/
  reason : Reason
deriving DecidableEq, Repr

end Lox.Grammar
