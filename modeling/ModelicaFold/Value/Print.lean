import ModelicaFold.Value.Basic

/-!
# Written values and equality of values

Values are written in the notation of the modelling language. Two values are equal when they are
built alike from equal parts; reals are compared as numbers.
-/

namespace ModelicaFold.Value

mutual

/-- The written form of a value. -/
def text : Value → String
  | .integer n => toString n
  | .real x => Decimal.literal x
  | .bool b => boolText b
  | .string s => stringText s
  | .enumeration path _ => path.text
  | .array ⟨elements⟩ _ => braced (texts elements)
  | .list ⟨elements⟩ => braced (texts elements)
  | .tuple elements => "(" ++ Text.commaSeparated (texts elements) ++ ")"
  | .record path fields names _ =>
    path.text ++ "(" ++ Text.commaSeparated (fieldTexts names fields) ++ ")"
  | .present content => "SOME(" ++ content.text ++ ")"
  | .absent => "NONE()"
  | .boxed content => content.text
  | .fail => "fail()"
  | .noReturn => "#NORETURN#"
  | .code fragment => "$Code(" ++ fragment.text ++ ")"
  | .empty _ name _ => "<empty " ++ name ++ ">"

def texts : List Value → List String
  | [] => []
  | v :: vs => v.text :: texts vs

/-- Fields with their names; a field without a name is left out. -/
def fieldTexts (names : List String) : List Value → List String
  | [] => []
  | v :: vs =>
    match names with
    | [] => []
    | name :: more => (name ++ " = " ++ v.text) :: fieldTexts more vs

end

mutual

/-- Equality of values. -/
def same : Value → Value → Bool
  | .integer a, .integer b => a == b
  | .real a, .real b => a == b
  | .bool a, .bool b => a == b
  | .string a, .string b => a == b
  | .enumeration p i, .enumeration q j => p == q && i == j
  | .array ⟨xs⟩ ds, .array ⟨ys⟩ es => allSame xs ys && ds == es
  | .list ⟨xs⟩, .list ⟨ys⟩ => allSame xs ys
  | .tuple xs, .tuple ys => allSame xs ys
  | .record p xs ms i, .record q ys ns j => p == q && allSame xs ys && ms == ns && i == j
  | .present a, .present b => a.same b
  | .absent, .absent => true
  | .boxed a, .boxed b => a.same b
  | .fail, .fail => true
  | .noReturn, .noReturn => true
  | .code f, .code g => f.same g
  | .empty s n t, .empty s' n' t' => s == s' && n == n' && t.same t'
  | _, _ => false

def allSame : List Value → List Value → Bool
  | [], [] => true
  | a :: as, b :: bs => a.same b && allSame as bs
  | _, _ => false

end

instance : BEq Value := ⟨same⟩

end ModelicaFold.Value
