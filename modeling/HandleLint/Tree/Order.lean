import HandleLint.Tree.Basic

/-!
# The subexpressions of an expression

* `Expr.preorder`: an expression, then what stands inside it, from left to right;
* `Expr.postorder`: what stands inside an expression from left to right, then the expression.

Both list the receiver of a call before its arguments.
-/

namespace HandleLint.Expr

mutual

def preorder : Expr → List Expr
  | e@(field _ object _) => e :: preorder object
  | e@(call _ none _ args) => e :: preorderAll args
  | e@(call _ (some receiver) _ args) => e :: (preorder receiver ++ preorderAll args)
  | e@(new _ _ args) => e :: preorderAll args
  | e@(assign _ target value) => e :: (preorder target ++ preorder value)
  | e@(binary _ _ left right) => e :: (preorder left ++ preorder right)
  | e@(unary _ _ operand) => e :: preorder operand
  | e@(conditional _ condition whenTrue whenFalse) =>
    e :: (preorder condition ++ preorder whenTrue ++ preorder whenFalse)
  | e@(cast _ _ operand) => e :: preorder operand
  | e@(instanceOf _ operand _) => e :: preorder operand
  | e@(index _ array position) => e :: (preorder array ++ preorder position)
  | e@(null _) | e@(bool _ _) | e@(int _ _) | e@(string _ _) | e@(ident _ _) | e@(this _) => [e]

def preorderAll : List Expr → List Expr
  | [] => []
  | e :: es => preorder e ++ preorderAll es

end

mutual

def postorder : Expr → List Expr
  | e@(field _ object _) => postorder object ++ [e]
  | e@(call _ none _ args) => postorderAll args ++ [e]
  | e@(call _ (some receiver) _ args) => postorder receiver ++ postorderAll args ++ [e]
  | e@(new _ _ args) => postorderAll args ++ [e]
  | e@(assign _ target value) => postorder target ++ postorder value ++ [e]
  | e@(binary _ _ left right) => postorder left ++ postorder right ++ [e]
  | e@(unary _ _ operand) => postorder operand ++ [e]
  | e@(conditional _ condition whenTrue whenFalse) =>
    postorder condition ++ postorder whenTrue ++ postorder whenFalse ++ [e]
  | e@(cast _ _ operand) => postorder operand ++ [e]
  | e@(instanceOf _ operand _) => postorder operand ++ [e]
  | e@(index _ array position) => postorder array ++ postorder position ++ [e]
  | e@(null _) | e@(bool _ _) | e@(int _ _) | e@(string _ _) | e@(ident _ _) | e@(this _) => [e]

def postorderAll : List Expr → List Expr
  | [] => []
  | e :: es => postorder e ++ postorderAll es

end

end HandleLint.Expr
