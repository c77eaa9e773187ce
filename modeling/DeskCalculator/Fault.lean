import DeskCalculator.Vocabulary
import DeskCalculator.Decimal.Shortest

/-!
# Why an evaluation fails

A text may not be readable, an operation may be undefined for its operands, or the value may be
infinite.
-/

namespace DeskCalculator

inductive GrammarFault where
  | unexpectedCharacter (c : Char)
  | invalidNumber (text : String)
  | emptyExpression
  | adjacentValues
  | missingParenthesis (name : String)
  | unknownName (name : String)
  | parenthesisAfterValue
  | tooDeep
  | missingOperandBeforeClosing
  | unmatchedClosing
  | missingLeftOperand (operator : String)
  | negationInInput
  | incompleteExpression
  | unclosedParenthesis
  | missingArgument (name : String)
  | malformedExpression
  | parenthesisInPostfixOrder
  | emptyTower
deriving DecidableEq, Repr

namespace GrammarFault

def message : GrammarFault → String
  | unexpectedCharacter c => "caractère inattendu: '" ++ String.singleton c ++ "'"
  | invalidNumber text => "nombre invalide: \"" ++ text ++ "\""
  | emptyExpression => "expression vide"
  | adjacentValues => "deux valeurs sans opérateur"
  | missingParenthesis name => name ++ " attend '('"
  | unknownName name => "nom inconnu: " ++ name
  | parenthesisAfterValue => "'(' après une valeur"
  | tooDeep => "expression trop imbriquée"
  | missingOperandBeforeClosing => "opérande manquant avant ')'"
  | unmatchedClosing => "')' sans '(' correspondante"
  | missingLeftOperand operator => "opérateur '" ++ operator ++ "' sans opérande gauche"
  | negationInInput => "jeton Neg inattendu en entrée"
  | incompleteExpression => "expression incomplète"
  | unclosedParenthesis => "parenthèses non fermées"
  | missingArgument name => name ++ " sans argument"
  | malformedExpression => "expression invalide"
  | parenthesisInPostfixOrder => "parenthèse inattendue en RPN"
  | emptyTower => "puissance sans opérande"

end GrammarFault

inductive DomainFault where
  | rootOfNegative
  | logarithmOfNegative
  | outsideUnitInterval (f : NamedFunction)
  | undefinedAt (f : NamedFunction) (x : Float)
  | divisionByZero
  | undefinedValue
deriving DecidableEq

namespace DomainFault

def message : DomainFault → String
  | rootOfNegative => "racine d’un nombre négatif"
  | logarithmOfNegative => "logarithme d’un nombre négatif"
  | outsideUnitInterval f => f.name ++ " hors de [-1, 1]"
  | undefinedAt f x => f.name ++ "(" ++ numberText x ++ ") indéfini"
  | divisionByZero => "division par zéro"
  | undefinedValue => "résultat indéfini (NaN)"

end DomainFault

inductive Fault where
  | grammar (fault : GrammarFault)
  | domain (fault : DomainFault)
  | overflow
deriving DecidableEq

namespace Fault

def message : Fault → String
  | grammar fault => "syntaxe: " ++ fault.message
  | domain fault => "domaine: " ++ fault.message
  | overflow => "dépassement: résultat non fini"

end Fault

end DeskCalculator
