import ModelicaFold.Syntax.Expr

/-!
# Equality of expressions

Quoted code and declared types occur inside values, and values are compared. Two trees are equal
when they have the same constructors and equal parts; reals are compared as numbers, so that `0.0`
equals `-0.0` and the value that is not a number equals nothing.
-/

namespace ModelicaFold

mutual

/-- Equality of quoted code. -/
def Code.same : Code → Code → Bool
  | .integer a, .integer b => a == b
  | .real a, .real b => a == b
  | .string a, .string b => a == b
  | .bool a, .bool b => a == b
  | .reference p subs, .reference q subs' => p == q && Code.allSame subs subs'
  | .binary l op r, .binary l' op' r' => l.same l' && op == op' && r.same r'
  | .unary op e, .unary op' e' => op == op' && e.same e'
  | .logical l op r, .logical l' op' r' => l.same l' && op == op' && r.same r'
  | .logicalUnary op e, .logicalUnary op' e' => op == op' && e.same e'
  | .relation l op r, .relation l' op' r' => l.same l' && op == op' && r.same r'
  | .conditional c t bs e, .conditional c' t' bs' e' =>
    c.same c' && t.same t' && Code.allBranchesSame bs bs' && e.same e'
  | .call f args named, .call f' args' named' =>
    f == f' && Code.allSame args args' && Code.allNamedSame named named'
  | .array xs, .array ys => Code.allSame xs ys
  | .matrix xs, .matrix ys => Code.allRowsSame xs ys
  | .range a none b, .range a' none b' => a.same a' && b.same b'
  | .range a (some s) b, .range a' (some s') b' => a.same a' && s.same s' && b.same b'
  | .tuple xs, .tuple ys => Code.allSame xs ys
  | .list xs, .list ys => Code.allSame xs ys
  | .last, .last => true
  | _, _ => false
termination_by structural x => x

def Code.allSame : List Code → List Code → Bool
  | [], [] => true
  | a :: as, b :: bs => a.same b && Code.allSame as bs
  | _, _ => false
termination_by structural x => x

def Code.allRowsSame : List (List Code) → List (List Code) → Bool
  | [], [] => true
  | a :: as, b :: bs => Code.allSame a b && Code.allRowsSame as bs
  | _, _ => false
termination_by structural x => x

def Code.allBranchesSame : List (Code × Code) → List (Code × Code) → Bool
  | [], [] => true
  | (a, c) :: as, (b, d) :: bs => a.same b && c.same d && Code.allBranchesSame as bs
  | _, _ => false
termination_by structural x => x

def Code.allNamedSame : List (String × Code) → List (String × Code) → Bool
  | [], [] => true
  | (m, a) :: as, (n, b) :: bs => m == n && a.same b && Code.allNamedSame as bs
  | _, _ => false
termination_by structural x => x

end

/-- Equality of quoted fragments. -/
def Fragment.same : Fragment → Fragment → Bool
  | .expression a, .expression b => a.same b
  | .typeName p, .typeName q => p == q
  | .componentName p, .componentName q => p == q
  | _, _ => false

mutual

/-- Equality of dimensions. -/
def Dimension.same : Dimension → Dimension → Bool
  | .known m, .known n => m == n
  | .enumeration p m, .enumeration q n => p == q && m == n
  | .boolean, .boolean => true
  | .computed a, .computed b => a.same b
  | .unknown, .unknown => true
  | _, _ => false
termination_by structural x => x

def Dimension.allSame : List Dimension → List Dimension → Bool
  | [], [] => true
  | a :: as, b :: bs => a.same b && Dimension.allSame as bs
  | _, _ => false
termination_by structural x => x

/-- Equality of types. -/
def Ty.same : Ty → Ty → Bool
  | .integer, .integer => true
  | .real, .real => true
  | .boolean, .boolean => true
  | .string, .string => true
  | .enumeration p ls, .enumeration q ls' => p == q && ls == ls'
  | .array t ds, .array u es => t.same u && Dimension.allSame ds es
  | .record p, .record q => p == q
  | .tuple ts, .tuple us => Ty.allSame ts us
  | .list t, .list u => t.same u
  | .option t, .option u => t.same u
  | .boxed t, .boxed u => t.same u
  | .code, .code => true
  | .noReturn, .noReturn => true
  | .unknown, .unknown => true
  | _, _ => false
termination_by structural x => x

def Ty.allSame : List Ty → List Ty → Bool
  | [], [] => true
  | a :: as, b :: bs => a.same b && Ty.allSame as bs
  | _, _ => false
termination_by structural x => x

/-- Equality of subscripts. -/
def Subscript.same : Subscript → Subscript → Bool
  | .whole, .whole => true
  | .slice a, .slice b => a.same b
  | .index a, .index b => a.same b
  | _, _ => false
termination_by structural x => x

def Subscript.allSame : List Subscript → List Subscript → Bool
  | [], [] => true
  | a :: as, b :: bs => a.same b && Subscript.allSame as bs
  | _, _ => false
termination_by structural x => x

def RefPart.allSame : List RefPart → List RefPart → Bool
  | [], [] => true
  | .mk m a :: as, .mk n b :: bs => m == n && Subscript.allSame a b && RefPart.allSame as bs
  | _, _ => false
termination_by structural x => x

def Iterator.allSame : List Iterator → List Iterator → Bool
  | [], [] => true
  | .mk m a g t :: as, .mk n b h u :: bs =>
    m == n && a.same b && Expr.optionSame g h && t.same u && Iterator.allSame as bs
  | _, _ => false
termination_by structural x => x

/-- Equality of the descriptions of two reductions. -/
def ReductionInfo.same : ReductionInfo → ReductionInfo → Bool
  | .mk p k t d v r f, .mk p' k' t' d' v' r' f' =>
    p == p' && k == k' && t.same t' && Expr.optionSame d d' && v == v' && r == r' &&
      Expr.optionSame f f'
termination_by structural x => x

/-- Equality of expressions. -/
def Expr.same : Expr → Expr → Bool
  | .integer a, .integer b => a == b
  | .real a, .real b => a == b
  | .bool a, .bool b => a == b
  | .string a, .string b => a == b
  | .enumeration p i, .enumeration q j => p == q && i == j
  | .array t s xs, .array u s' ys => t.same u && s == s' && Expr.allSame xs ys
  | .matrix t xs, .matrix u ys => t.same u && Expr.allRowsSame xs ys
  | .range t a s b, .range t' a' s' b' =>
    t.same t' && a.same a' && Expr.optionSame s s' && b.same b'
  | .tuple xs, .tuple ys => Expr.allSame xs ys
  | .cast t e, .cast u e' => t.same u && e.same e'
  | .reference ps t, .reference qs u => RefPart.allSame ps qs && t.same u
  | .binary l op r, .binary l' op' r' => l.same l' && op == op' && r.same r'
  | .unary op e, .unary op' e' => op == op' && e.same e'
  | .logical l op r, .logical l' op' r' => l.same l' && op == op' && r.same r'
  | .logicalNot e, .logicalNot e' => e.same e'
  | .relation l op r, .relation l' op' r' => l.same l' && op == op' && r.same r'
  | .conditional c t e, .conditional c' t' e' => c.same c' && t.same t' && e.same e'
  | .call p xs t b i, .call q ys u b' i' =>
    p == q && Expr.allSame xs ys && t.same u && b == b' && i == i'
  | .record p xs ns, .record q ys ns' => p == q && Expr.allSame xs ys && ns == ns'
  | .unionRecord p i xs ns, .unionRecord q j ys ns' =>
    p == q && i == j && Expr.allSame xs ys && ns == ns'
  | .subscripted e ss, .subscripted e' ss' => e.same e' && Subscript.allSame ss ss'
  | .component e i, .component e' j => e.same e' && i == j
  | .field e n, .field e' n' => e.same e' && n == n'
  | .size e d, .size e' d' => e.same e' && Expr.optionSame d d'
  | .list xs, .list ys => Expr.allSame xs ys
  | .cons h t, .cons h' t' => h.same h' && t.same t'
  | .present e, .present e' => e.same e'
  | .absent, .absent => true
  | .boxed e, .boxed e' => e.same e'
  | .unbox e t, .unbox e' u => e.same e' && t.same u
  | .reduction i b its, .reduction i' b' its' => i.same i' && b.same b' && Iterator.allSame its its'
  | .code f, .code g => f.same g
  | _, _ => false
termination_by structural x => x

def Expr.optionSame : Option Expr → Option Expr → Bool
  | none, none => true
  | some a, some b => a.same b
  | _, _ => false
termination_by structural x => x

def Expr.allSame : List Expr → List Expr → Bool
  | [], [] => true
  | a :: as, b :: bs => a.same b && Expr.allSame as bs
  | _, _ => false
termination_by structural x => x

def Expr.allRowsSame : List (List Expr) → List (List Expr) → Bool
  | [], [] => true
  | a :: as, b :: bs => Expr.allSame a b && Expr.allRowsSame as bs
  | _, _ => false
termination_by structural x => x

end

instance : BEq Ty := ⟨Ty.same⟩

end ModelicaFold
