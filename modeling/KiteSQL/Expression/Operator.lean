import Mathlib.Tactic

/-! The operators of scalar expressions. -/
namespace KiteSQL

inductive UnaryOperator where
  | plus
  | minus
  | not
deriving DecidableEq

inductive BinaryOperator where
  | plus
  | minus
  | multiply
  | divide
  | modulo
  | stringConcat
  | gt
  | lt
  | gtEq
  | ltEq
  | spaceship
  | eq
  | notEq
  | like (escape : Option Char)
  | notLike (escape : Option Char)
  | and
  | or
deriving DecidableEq

end KiteSQL
