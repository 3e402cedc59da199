import CPretty.Token.Kind

namespace CPretty

inductive Category where
  | storageClass | structOrUnion | typeQualifier | typeKeyword | functionSpecifier | assignment
  | multiplicative | additive | shift | relational | equality | unary | count
deriving DecidableEq, Repr

namespace Category

def all : List Category :=
  [.storageClass, .structOrUnion, .typeQualifier, .typeKeyword, .functionSpecifier, .assignment,
    .multiplicative, .additive, .shift, .relational, .equality, .unary, .count]

/-- The kinds that belong to a group. -/
def members : Category → List Kind
  | .storageClass => [.kwAuto, .kwExtern, .kwRegister, .kwStatic, .kwTypedef, .kwThreadLocal]
  | .structOrUnion => [.kwStruct, .kwUnion]
  | .typeQualifier => [.kwConst, .kwVolatile, .kwRestrict, .kwAtomic]
  | .typeKeyword =>
    [.kwVoid, .kwChar, .kwShort, .kwInt, .kwLong, .kwFloat, .kwDouble, .kwSigned, .kwUnsigned,
      .kwBool, .kwComplex, .kwImaginary]
  | .functionSpecifier => [.kwInline]
  | .assignment =>
    [.eq, .plusEq, .minusEq, .starEq, .slashEq, .percentEq, .ampEq, .pipeEq, .caretEq, .ltLtEq,
      .gtGtEq]
  | .multiplicative => [.star, .slash, .percent]
  | .additive => [.plus, .minus]
  | .shift => [.ltLt, .gtGt]
  | .relational => [.lt, .le, .gt, .ge]
  | .equality => [.eqEq, .notEq]
  | .unary => [.amp, .star, .plus, .minus, .tilde, .bang]
  | .count => [.plusPlus, .minusMinus]

def name : Category → String
  | .storageClass => "StorageClass"
  | .structOrUnion => "StructOrUnion"
  | .typeQualifier => "TypeQualifier"
  | .typeKeyword => "TypeKeyword"
  | .functionSpecifier => "FunctionSpecifier"
  | .assignment => "Assignment"
  | .multiplicative => "Multiplicative"
  | .additive => "Additive"
  | .shift => "Shift"
  | .relational => "Relational"
  | .equality => "Equality"
  | .unary => "Unary"
  | .count => "Count"

def describe : Category → String
  | .storageClass => "storage-class specifier"
  | .structOrUnion => "'struct' or 'union'"
  | .typeQualifier => "type qualifier"
  | .typeKeyword => "type keyword"
  | .functionSpecifier => "function specifier"
  | .assignment => "assignment operator"
  | .multiplicative => "multiplicative operator"
  | .additive => "additive operator"
  | .shift => "shift operator"
  | .relational => "relational operator"
  | .equality => "equality operator"
  | .unary => "unary operator"
  | .count => "'++' or '--'"

end Category

def Kind.is (k : Kind) (c : Category) : Bool :=
  c.members.contains k

def Kind.categories (k : Kind) : List Category :=
  Category.all.filter k.is

end CPretty
