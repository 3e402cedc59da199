import CPretty.Syntax.Basic

namespace CPretty.Node

@[simp] def isBareName : Node → Bool
  | ⟨_, .ident _⟩ => true
  | ⟨_, .nested decl⟩ => isBareName decl
  | _ => false

def isNameOrNested (n : Node) : Bool :=
  match n.shape with
  | .ident _ | .nested _ => true
  | _ => false

/-- Whether a declarator declares a function: under its pointers, its last suffix is a parameter
list. -/
@[simp] def declaresFunction : Node → Bool
  | ⟨_, .pointer _ (some decl)⟩ => declaresFunction decl
  | ⟨_, .function ..⟩ => true
  | _ => false

/-- A declarator without the parameter list of its name, and that list: the first suffix after the
name, where parentheses that hold nothing but the name do not count. -/
@[simp] def detachParams? : Node → Option (Node × Option (List Node))
  | ⟨span, .pointer quals (some decl)⟩ =>
    (detachParams? decl).map fun (decl, params) =>
      (⟨span.through decl.span, .pointer quals (some decl)⟩, params)
  | ⟨span, .array (some decl) size⟩ =>
    (detachParams? decl).map fun (decl, params) => (⟨span, .array (some decl) size⟩, params)
  | ⟨span, .nested decl⟩ =>
    (detachParams? decl).map fun (decl, params) => (⟨span, .nested decl⟩, params)
  | ⟨span, .function (some decl) outer⟩ =>
    match detachParams? decl with
    | some (decl, params) => some (⟨span, .function (some decl) outer⟩, params)
    | none =>
      match decl with
      | ⟨_, .ident _⟩ => some (decl, outer)
      | ⟨_, .nested inner⟩ => if inner.isNameOrNested then some (decl, outer) else none
      | _ => none
  | _ => none

/-- A declarator with a parameter list put back after its name. -/
@[simp] def attachParams (params : Option (List Node)) : Node → Node
  | ⟨span, .nested decl⟩ =>
    if decl.isBareName then ⟨span, .function (some ⟨span, .nested decl⟩) params⟩
    else ⟨span, .nested (attachParams params decl)⟩
  | ⟨span, .pointer quals (some decl)⟩ =>
    ⟨span, .pointer quals (some (attachParams params decl))⟩
  | ⟨span, .array (some decl) size⟩ => ⟨span, .array (some (attachParams params decl)) size⟩
  | ⟨span, .function (some decl) outer⟩ =>
    ⟨span, .function (some (attachParams params decl)) outer⟩
  | ⟨span, shape⟩ => ⟨span, .function (some ⟨span, shape⟩) params⟩

end CPretty.Node
