import VectorMachine.Contract.Case

/-!
# The suite

The cases that fix what every instruction does.
-/

namespace VectorMachine.Contract
set_option autoImplicit false

def lines (xs : List String) : String := "\n".intercalate xs

def arithmeticCases : List Case :=
  [ { name := "int add"
      source := lines ["ALLOC int R0;", "ADD int R0 ~int:1 ~int:2;", "END int - R0;"]
      checks := [.result (.int 3)] },
    { name := "int to float promotion"
      source := lines ["ALLOC float R0;", "ADD float R0 ~int:1 ~float:2.2;", "END float - R0;"]
      checks := [.resultNear 3.2] },
    { name := "string concatenation stringifies"
      source := lines ["ALLOC string R0;", "ADD string R0 ~int:1 ~string:\"str\";",
        "ADD string R0 R0 ~float:2.0;", "ADD string R0 R0 ~bool:true;", "END string - R0;"]
      checks := [.result (.string "1str2.0true")] },
    { name := "int arithmetic"
      source := lines ["#LOCAL_VARIABLE _x;", "ALLOC int _x;", "MOV int _x ~int:17;",
        "SUB int _x _x ~int:3;", "MUL int _x _x ~int:3;", "DIV int _x _x ~int:4;",
        "REM int _x _x ~int:6;", "NEG int _x _x;", "END int - _x;"]
      checks := [.result (.int (-4))] },
    { name := "int division truncates"
      source := lines ["ALLOC int R0;", "DIV int R0 ~int:-7 ~int:2;", "END int - R0;"]
      checks := [.result (.int (-3))] },
    { name := "float remainder"
      source := lines ["ALLOC float R0;", "REM float R0 ~float:7.5 ~int:2;", "END float - R0;"]
      checks := [.resultNear 1.5] },
    { name := "float division by zero is infinite"
      source := lines ["ALLOC float R0;", "DIV float R0 ~float:1.0 ~float:0.0;", "ALLOC bool R1;",
        "GT float R1 R0 ~float:1e308;", "END bool - R1;"]
      checks := [.result (.bool true)] },
    { name := "int division by zero"
      source := lines ["ALLOC int R0;", "DIV int R0 ~int:1 ~int:0;"]
      wanted := some (.data .divideByZero) },
    { name := "int remainder by zero"
      source := lines ["ALLOC int R0;", "REM int R0 ~int:1 ~int:0;"]
      wanted := some (.data .divideByZero) },
    { name := "narrowing is unsupported"
      source := lines ["ALLOC int R0;", "ADD int R0 ~int:1 ~float:2.5;"]
      wanted := some (.data .unsupportedType) },
    { name := "string subtraction is unsupported"
      source := lines ["ALLOC string R0;", "SUB string R0 ~string:\"a\" ~string:\"b\";"]
      wanted := some (.data .unsupportedType) },
    { name := "bool arithmetic is unsupported"
      source := lines ["ADD bool R0 ~bool:true ~bool:true;"]
      wanted := some (.data .unsupportedType) },
    { name := "mixed comparison"
      source := lines ["ALLOC bool R0;", "GT float R0 ~int:3 ~float:2.5;", "END bool - R0;"]
      checks := [.result (.bool true)] },
    { name := "string comparison of textual forms"
      source := lines ["#LOCAL_VARIABLE _a;", "#LOCAL_VARIABLE _b;", "#LOCAL_VARIABLE _c;",
        "ALLOC bool _a;", "ALLOC bool _b;", "ALLOC bool _c;",
        "EQ string _a ~int:1 ~string:\"1\";", "EQ string _b ~bool:true ~string:\"true\";",
        "LT string _c ~string:\"abc\" ~string:\"abd\";", "ANDM bool _a _a _b;",
        "ANDM bool _a _a _c;", "END bool - _a;"]
      checks := [.result (.bool true)] },
    { name := "bool equality"
      source := lines ["ALLOC bool R0;", "NEQ bool R0 ~bool:true ~bool:false;", "END bool - R0;"]
      checks := [.result (.bool true)] },
    { name := "bool ordering is unsupported"
      source := lines ["LT bool R0 ~bool:true ~bool:false;"]
      wanted := some (.data .unsupportedType) },
    { name := "literal forms"
      source := lines ["#LOCAL_VARIABLE _s;", "ALLOC int _s;",
        "ADD int _s ~int:0x123 ~int:0o123;", "ADD int _s _s ~int:0b1010;",
        "ADD int _s _s ~int:123;", "END int - _s;"]
      checks := [.result (.int 507)] },
    { name := "hex literal"
      source := lines ["END int - ~int:0x123;"]
      checks := [.result (.int 291)] },
    { name := "octal literal"
      source := lines ["END int - ~int:0o123;"]
      checks := [.result (.int 83)] },
    { name := "binary literal"
      source := lines ["END int - ~int:0b1010;"]
      checks := [.result (.int 10)] },
    { name := "decimal literal"
      source := lines ["END int - ~int:123;"]
      checks := [.result (.int 123)] },
    { name := "string literal"
      source := lines ["END string - ~string:\"a\\tb\";"]
      checks := [.result (.string "a\tb")] } ]

def vectorCases : List Case :=
  [ { name := "broadcast vector plus scalar"
      source := lines ["#GLOBAL_VARIABLE _v;", "ALLOC int R0 ~int:3;", "ADD int R0 _v ~int:10;",
        "END int - R0;"]
      globals := [("v", .ints [1, 2, 3])]
      checks := [.result (.ints [11, 12, 13])] },
    { name := "broadcast scalar minus vector"
      source := lines ["#GLOBAL_VARIABLE _v;", "ALLOC int R0;", "SUB int R0 ~int:10 _v;",
        "END int - R0;"]
      globals := [("v", .ints [1, 2, 3])]
      checks := [.result (.ints [9, 8, 7])] },
    { name := "elementwise float"
      source := lines ["#GLOBAL_VARIABLE _a;", "#GLOBAL_VARIABLE _b;", "ALLOC float R0 ~int:2;",
        "MUL float R0 _a _b;", "END float - R0;"]
      globals := [("a", .floats [1.5, 2]), ("b", .ints [2, 3])]
      checks := [.result (.floats [3, 6])] },
    { name := "elementwise in place"
      source := lines ["#GLOBAL_VARIABLE _a;", "ADD int _a _a _a;"]
      globals := [("a", .ints [1, 2, 3])]
      checks := [.global "a" (.ints [2, 4, 6])] },
    { name := "matrix broadcast"
      source := lines ["#GLOBAL_VARIABLE _m;", "ALLOC float R0;", "MUL float R0 _m ~float:0.5;",
        "END float - R0;"]
      globals := [("m", .floatRows [[2, 4], [6, 8]])]
      checks := [.result (.floatRows [[1, 2], [3, 4]])] },
    { name := "vector length mismatch"
      source := lines ["#GLOBAL_VARIABLE _a;", "#GLOBAL_VARIABLE _b;", "ADD int R0 _a _b;"]
      globals := [("a", .ints [1, 2, 3]), ("b", .ints [1, 2])]
      wanted := some (.data .lengthMismatch) },
    { name := "vector comparison"
      source := lines ["#GLOBAL_VARIABLE _v;", "ALLOC bool R0;", "GEQ int R0 _v ~int:2;",
        "END bool - R0;"]
      globals := [("v", .ints [1, 2, 3])]
      checks := [.result (.bools [false, true, true])] },
    { name := "vector negation"
      source := lines ["#GLOBAL_VARIABLE _v;", "#GLOBAL_VARIABLE _f;", "NEG float _v _v;",
        "NOT bool _f _f;"]
      globals := [("v", .floats [1, -2]), ("f", .bools [true, false])]
      checks := [.global "v" (.floats [-1, 2]), .global "f" (.bools [false, true])] },
    { name := "vector result reallocates scalar destination"
      source := lines ["#GLOBAL_VARIABLE _v;", "#LOCAL_VARIABLE _x;", "ALLOC int _x;",
        "ADD int _x _v ~int:1;", "END int - _x;"]
      globals := [("v", .ints [4, 5])]
      checks := [.result (.ints [5, 6])] },
    { name := "string vector concatenation"
      source := lines ["#GLOBAL_VARIABLE _v;", "ALLOC string R0;",
        "ADD string R0 ~string:\"n\" _v;", "END string - R0;"]
      globals := [("v", .ints [1, 2])]
      checks := [.result (.strings ["n1", "n2"])] } ]

/-- A connective whose right operand, with its effect on `x`, is jumped over if the left one
decides alone. -/
def shortCircuit (name : String) (op : Connective) (left : List Bool) (x : Int) : Case :=
  let jump := match op with
    | .and => "JMPN"
    | .or => "JMP"
  { name := name
    source := lines ["#GLOBAL_VARIABLE _left;", "#LOCAL_VARIABLE _x;", "ALLOC int _x;",
      "MOV int _x ~int:0;", "MOV bool R0 _left;", jump ++ " bool - &done R0;",
      "MOV int _x ~int:1;", "ALLOC bool R1;", "EQ int R1 _x ~int:1;",
      op.name ++ " bool R0 R0 R1;", "#LABEL &done;", "END int - _x;"]
    globals := [("left", .bools left)]
    checks := [.result (.int x)] }

def logicCases : List Case :=
  [ shortCircuit "and all false skips right" .and [false, false] 0,
    shortCircuit "and all true evaluates right" .and [true, true] 1,
    shortCircuit "and mixed evaluates right" .and [true, false] 1,
    shortCircuit "or all true skips right" .or [true, true] 0,
    shortCircuit "or all false evaluates right" .or [false, false] 1,
    shortCircuit "or mixed evaluates right" .or [false, true] 1,
    { name := "decisive left never reads right"
      source := lines ["#GLOBAL_VARIABLE _f;", "ALLOC bool R0;", "ANDM bool R0 _f R1;",
        "END bool - R0;"]
      globals := [("f", .bools [false, false])]
      checks := [.result (.bools [false, false])] },
    { name := "mixed left reads right"
      source := lines ["#GLOBAL_VARIABLE _f;", "ALLOC bool R0;", "ANDM bool R0 _f R1;"]
      globals := [("f", .bools [false, true])]
      wanted := some (.data .unsupportedType) },
    { name := "elementwise or"
      source := lines ["#GLOBAL_VARIABLE _a;", "#GLOBAL_VARIABLE _b;", "ALLOC bool R0;",
        "ORM bool R0 _a _b;", "END bool - R0;"]
      globals := [("a", .bools [false, true, false]), ("b", .bools [false, false, true])]
      checks := [.result (.bools [false, true, true])] },
    { name := "scalar logic"
      source := lines ["#LOCAL_VARIABLE _a;", "ALLOC bool _a;",
        "ORM bool _a ~bool:false ~bool:true;", "ANDM bool _a _a ~bool:true;", "NOT bool _a _a;",
        "END bool - _a;"]
      checks := [.result (.bool false)] },
    { name := "logic on ints is unsupported"
      source := lines ["ANDM int R0 ~int:1 ~int:0;"]
      wanted := some (.data .unsupportedType) } ]

def transferCases : List Case :=
  [ { name := "size one array into scalar"
      source := lines ["#GLOBAL_VARIABLE _one;", "#LOCAL_VARIABLE _s;", "ALLOC int _s;",
        "MOV int _s _one;", "END int - _s;"]
      globals := [("one", .ints [5])]
      checks := [.result (.int 5)] },
    { name := "larger array into scalar"
      source := lines ["#GLOBAL_VARIABLE _three;", "#LOCAL_VARIABLE _s;", "ALLOC int _s;",
        "MOV int _s _three;"]
      globals := [("three", .ints [1, 2, 3])]
      wanted := some (.data .scalarSize) },
    { name := "array assignment adopts source shape"
      source := lines ["#GLOBAL_VARIABLE _src;", "#LOCAL_VARIABLE _dst;",
        "ALLOC int _dst ~int:5;", "MOV int _dst _src;", "END int - _dst;"]
      globals := [("src", .ints [1, 2])]
      checks := [.result (.ints [1, 2])] },
    { name := "assignment copies"
      source := lines ["#GLOBAL_VARIABLE _src;", "#LOCAL_VARIABLE _dst;", "MOV int _dst _src;",
        "MOV int _src ~int:9;", "END int - _dst;"]
      globals := [("src", .int 4)]
      checks := [.result (.int 4)] },
    { name := "assignment widens"
      source := lines ["#LOCAL_VARIABLE _f;", "ALLOC float _f;", "MOV float _f ~int:3;",
        "END float - _f;"]
      checks := [.result (.float 3)] },
    { name := "alloc lengths"
      source := lines ["ALLOC bool R0 ~int:2 ~int:3;", "END bool - R0;"]
      checks := [.result (.boolRows [[false, false, false], [false, false, false]])] },
    { name := "negative alloc length"
      source := lines ["ALLOC int R0 ~int:-1;"]
      wanted := some (.data .arrayLength) },
    { name := "alloc like"
      source := lines ["#GLOBAL_VARIABLE _v;", "ALLOCR float R0 _v;", "END float - R0;"]
      globals := [("v", .ints [1, 2, 3])]
      checks := [.result (.floats [0, 0, 0])] },
    { name := "alloc like the stack top"
      source := lines ["#GLOBAL_VARIABLE _v;", "CALL void - &f _v;", "END int - R0;",
        "#LABEL &f;", "ALLOCP int R0;", "POP void;", "RET void - &f;"]
      globals := [("v", .intRows [[1], [2]])]
      checks := [.result (.intRows [[0], [0]])] },
    { name := "fill"
      source := lines ["#LOCAL_VARIABLE _v;", "ALLOC float _v ~int:2 ~int:2;",
        "FILL float _v ~float:1.5;", "END float - _v;"]
      checks := [.result (.floatRows [[1.5, 1.5], [1.5, 1.5]])] },
    { name := "fill converts"
      source := lines ["#LOCAL_VARIABLE _v;", "ALLOC int _v ~int:2;", "FILL string _v ~int:7;",
        "END string - _v;"]
      checks := [.result (.strings ["7", "7"])] },
    { name := "free"
      source := lines ["ALLOC int R0 ~int:3;", "FREE void R0;", "END int - R0;"]
      checks := [.result .nothing] },
    { name := "element read"
      source := lines ["#GLOBAL_VARIABLE _m;", "MOVELM int R0 _m ~int:1 ~int:0;", "END int - R0;"]
      globals := [("m", .intRows [[1, 2], [3, 4]])]
      checks := [.result (.int 3)] },
    { name := "element read into array destination"
      source := lines ["#GLOBAL_VARIABLE _v;", "ALLOC int R0 ~int:4;", "MOVELM int R0 _v ~int:2;",
        "END int - R0;"]
      globals := [("v", .ints [1, 2, 3])]
      checks := [.result (.int 3)] },
    { name := "element reference"
      source := lines ["#GLOBAL_VARIABLE _v;", "REFELM int R0 _v ~int:2;", "MOV int R0 ~int:9;",
        "ADD int R0 R0 ~int:1;"]
      globals := [("v", .ints [1, 2, 3])]
      checks := [.global "v" (.ints [1, 2, 10])] },
    { name := "element index out of range"
      source := lines ["#GLOBAL_VARIABLE _v;", "MOVELM int R0 _v ~int:3;"]
      globals := [("v", .ints [1, 2, 3])]
      wanted := some (.data .indexOutOfRange) },
    { name := "negative element index"
      source := lines ["#GLOBAL_VARIABLE _v;", "REFELM int R0 _v ~int:-1;"]
      globals := [("v", .ints [1, 2, 3])]
      wanted := some (.data .indexOutOfRange) },
    { name := "element index rank"
      source := lines ["#GLOBAL_VARIABLE _m;", "MOVELM int R0 _m ~int:1;"]
      globals := [("m", .intRows [[1, 2], [3, 4]])]
      wanted := some (.data .rankMismatch) },
    { name := "reference then reallocate"
      source := lines ["#LOCAL_VARIABLE _a;", "#LOCAL_VARIABLE _b;", "ALLOC int _a ~int:2;",
        "REF int _b _a;", "ALLOC int _b ~int:4;", "FILL int _b ~int:3;", "END int - _a;"]
      checks := [.result (.ints [3, 3, 3, 3])] } ]

def castCases : List Case :=
  [ { name := "cast int to float elementwise"
      source := lines ["#GLOBAL_VARIABLE _v;", "CAST float:int R0 _v;", "END float - R0;"]
      globals := [("v", .ints [1, 2, 3])]
      checks := [.result (.floats [1, 2, 3])] },
    { name := "cast float to int truncates"
      source := lines ["ALLOC int R0;", "CAST int:float R0 ~float:-2.7;", "END int - R0;"]
      checks := [.result (.int (-2))] },
    { name := "cast string to int"
      source := lines ["#GLOBAL_VARIABLE _v;", "CAST int:string R0 _v;", "END int - R0;"]
      globals := [("v", .strings ["42", "1.9", "-3"])]
      checks := [.result (.ints [42, 1, -3])] },
    { name := "cast float to int saturates"
      source := lines ["#GLOBAL_VARIABLE _v;", "CAST int:float R0 _v;", "END int - R0;"]
      globals := [("v", .floats [1e300, -1e300, 0.0 / 0.0])]
      checks := [.result (.ints [9223372036854775807, -9223372036854775808, 0])] },
    { name := "cast string to float"
      source := lines ["ALLOC float R0;", "CAST float:string R0 ~string:\"2.5\";",
        "END float - R0;"]
      checks := [.result (.float 2.5)] },
    { name := "cast bad string"
      source := lines ["ALLOC int R0;", "CAST int:string R0 ~string:\"abc\";"]
      wanted := some (.data .castValue) },
    { name := "cast to string"
      source := lines ["#GLOBAL_VARIABLE _v;", "CAST string:float R0 _v;", "END string - R0;"]
      globals := [("v", .floats [1, 0.5])]
      checks := [.result (.strings ["1.0", "0.5"])] },
    { name := "cast float to string in scientific notation"
      source := lines ["#GLOBAL_VARIABLE _v;", "CAST string:float R0 _v;", "END string - R0;"]
      globals := [("v", .floats [1e21, -1.5e-4, 1234567])]
      checks := [.result (.strings ["1.0E21", "-1.5E-4", "1234567.0"])] },
    { name := "cast bool to string"
      source := lines ["ALLOC string R0;", "CAST string:bool R0 ~bool:false;", "END string - R0;"]
      checks := [.result (.string "false")] },
    { name := "cast string to bool is one way"
      source := lines ["ALLOC bool R0;", "CAST bool:string R0 ~string:\"true\";"]
      wanted := some (.data .unsupportedType) },
    { name := "cast int to bool"
      source := lines ["ALLOC bool R0;", "CAST bool:int R0 ~int:1;"]
      wanted := some (.data .unsupportedType) },
    { name := "cast rank one to two"
      source := lines ["#GLOBAL_VARIABLE _v;", "ALLOC float R0 ~int:1 ~int:3;",
        "CAST float:int R0 _v;"]
      globals := [("v", .ints [1, 2, 3])]
      wanted := some (.data .rankMismatch) },
    { name := "cast scalar to array"
      source := lines ["ALLOC int R0 ~int:3;", "CAST int:float R0 ~float:1.5;"]
      wanted := some (.data .rankMismatch) },
    { name := "cast resizes same rank"
      source := lines ["#GLOBAL_VARIABLE _v;", "ALLOC int R0 ~int:1;", "CAST int:float R0 _v;",
        "END int - R0;"]
      globals := [("v", .floats [1.5, 2.5])]
      checks := [.result (.ints [1, 2])] } ]

/-- A function that sets its parameter, which the instruction `param` takes from the stack, to
two; it is called on a variable that holds zero. -/
def callFunction (name param : String) (result : Int) : Case :=
  { name := name
    source := lines ["#LOCAL_VARIABLE _a;", "#LOCAL_VARIABLE _x;", "ALLOC int _a;",
      "MOV int _a ~int:0;", "CALL void - &f _a;", "POP void;", "END int - _a;", "#LABEL &f;",
      param ++ " int _x;", "ENDPRM void;", "MOV int _x ~int:2;", "RET void - &f;",
      "ENDFUN void &f;"]
    checks := [.result (.int result)] }

def twice : Binding.Function where
  name := "twice"
  call := some fun args result => .onStore fun s => do
    match args with
    | a :: _ => s.setScalar result (.int (2 * (← s.int a)))
    | [] => .error .breakdown

def shrink : Binding.Function where
  name := "clear"
  call := some fun args _ => .onStore fun s =>
    match args with
    | a :: _ => s.alloc a .int [1]
    | [] => .error .breakdown

def failing : Binding.Function where
  name := "fail"
  call := some fun _ _ => throw (.error (.failed "boom"))

def callCases : List Case :=
  [ callFunction "call by reference" "REFPOP" 2,
    callFunction "call by value" "MOVPOP" 0,
    { callFunction "repeated call by reference" "REFPOP" 2 with repeats := 3 },
    { name := "callee reallocates by reference array"
      source := lines ["#LOCAL_VARIABLE _a;", "#LOCAL_VARIABLE _x;", "ALLOC int _a ~int:3;",
        "CALL void - &f _a;", "POP void;", "END int - _a;", "#LABEL &f;", "REFPOP int _x;",
        "ENDPRM void;", "ALLOC int _x ~int:5;", "FILL int _x ~int:7;", "RET void - &f;",
        "ENDFUN void &f;"]
      checks := [.result (.ints [7, 7, 7, 7, 7])] },
    { name := "callee assigns different size by reference"
      source := lines ["#GLOBAL_VARIABLE _src;", "#LOCAL_VARIABLE _a;", "#LOCAL_VARIABLE _x;",
        "ALLOC int _a ~int:3;", "CALL void - &f _a;", "POP void;", "END int - _a;", "#LABEL &f;",
        "REFPOP int _x;", "MOV int _x _src;", "RET void - &f;"]
      globals := [("src", .ints [8, 9])]
      checks := [.result (.ints [8, 9])] },
    { name := "constant argument taken by reference is copied"
      source := lines ["#LOCAL_VARIABLE _r;", "#LOCAL_VARIABLE _x;", "ALLOC int _r;",
        "CALL int - &inc ~int:5;", "MOVPOP int _r;", "CALL int - &inc ~int:5;", "MOVPOP int _r;",
        "END int - _r;", "#LABEL &inc;", "REFPOP int _x;", "ENDPRM void;",
        "ADD int _x _x ~int:1;", "RET int - &inc _x;"]
      repeats := 3
      checks := [.result (.int 6)] },
    { name := "return value"
      source := lines ["#LOCAL_VARIABLE _r;", "#LOCAL_VARIABLE _p;", "ALLOC int _r;",
        "CALL int - &sq ~int:7;", "MOVPOP int _r;", "CALL int - &sq _r;", "MOVPOP int _r;",
        "END int - _r;", "#LABEL &sq;", "MOVPOP int _p;", "ALLOC int R0;", "MUL int R0 _p _p;",
        "RET int - &sq R0;"]
      checks := [.result (.int 2401)] },
    { name := "recursive call"
      source := lines ["CALL void - &f;", "POP void;", "END void;", "#LABEL &f;",
        "CALL void - &f;", "POP void;", "RET void - &f;"]
      wanted := some (.data .recursiveCall) },
    { name := "function without return"
      source := lines ["CALL void - &f;", "POP void;", "END void;", "#LABEL &f;",
        "ENDFUN void &f;"]
      wanted := some (.data .noReturn)
      wantedText := "&f" },
    { name := "external function"
      source := lines ["#GLOBAL_FUNCTION _twice;", "ALLOC int R0;",
        "CALLX int R0 _twice ~int:21;", "END int - R0;"]
      functions := [twice]
      checks := [.result (.int 42)] },
    { name := "external function sees arguments by reference"
      source := lines ["#GLOBAL_FUNCTION _clear;", "#LOCAL_VARIABLE _v;", "ALLOC int _v ~int:2;",
        "FILL int _v ~int:5;", "CALLX void - _clear _v;", "END int - _v;"]
      functions := [shrink]
      checks := [.result (.ints [0])] },
    { name := "external function failure"
      source := lines ["#GLOBAL_FUNCTION _fail;", "CALLX void - _fail;"]
      functions := [failing]
      wanted := some (.data .externalFunction)
      wantedText := "external function failed _fail: boom" },
    { name := "external function failure wraps cause"
      source := lines ["#GLOBAL_FUNCTION _fail;", "CALLX void - _fail;"]
      functions := [failing]
      wanted := some (.host "boom") } ]

def controlCases : List Case :=
  [ { name := "counting loop"
      source := lines ["#LOCAL_VARIABLE _i;", "#LOCAL_VARIABLE _sum;", "ALLOC int _i;",
        "MOV int _i ~int:0;", "ALLOC int _sum;", "MOV int _sum ~int:0;", "ALLOC bool R0;",
        "#LABEL &loop;", "ADD int _i _i ~int:1;", "ADD int _sum _sum _i;",
        "LT int R0 _i ~int:100;", "JMP bool - &loop R0;", "END int - _sum;"]
      repeats := 2
      checks := [.result (.int 5050)] },
    { name := "float loop with conditional exit"
      source := lines ["#LOCAL_VARIABLE _x;", "#LOCAL_VARIABLE _n;", "ALLOC float _x;",
        "MOV float _x ~float:1.0;", "ALLOC int _n;", "MOV int _n ~int:0;", "ALLOC bool R0;",
        "#LABEL &top;", "GEQ float R0 _x ~float:1000.0;", "JMP bool - &done R0;",
        "MUL float _x _x ~float:2.0;", "ADD int _n _n ~int:1;", "JMP bool - &top ~bool:true;",
        "#LABEL &done;", "ADD float _x _x _n;", "END float - _x;"]
      checks := [.result (.float 1034)] },
    { name := "jump on vector condition"
      source := lines ["#GLOBAL_VARIABLE _c;", "ALLOC int R0;", "MOV int R0 ~int:1;",
        "JMP bool - &end _c;", "MOV int R0 ~int:2;", "#LABEL &end;", "END int - R0;"]
      globals := [("c", .bools [true, false])]
      checks := [.result (.int 2)] },
    { name := "end stops execution"
      source := lines ["ALLOC int R0;", "MOV int R0 ~int:1;", "END int - R0;",
        "MOV int R0 ~int:2;"]
      checks := [.result (.int 1)] },
    { name := "falls off the end"
      source := lines ["#GLOBAL_VARIABLE _g;", "ADD int _g _g ~int:1;", "NOP void;",
        "ALLOCT int R0;"]
      globals := [("g", .int 41)]
      checks := [.global "g" (.int 42)] },
    { name := "statement program has no result"
      source := lines ["#GLOBAL_VARIABLE _g;", "MOV string _g ~string:\"done\";", "END void;"]
      globals := [("g", .string "")]
      checks := [.result .nothing, .global "g" (.string "done")] },
    { name := "steps are counted"
      source := lines ["NOP void;", "NOP void;", "END void;"]
      checks := [.steps 3] },
    { name := "canceled"
      source := lines ["NOP void;"]
      canceled := true
      wanted := some .canceled },
    { name := "long loop is canceled by deadline"
      source := lines ["#LABEL &spin;", "JMP bool - &spin ~bool:true;"]
      wanted := some .deadline } ]

def failureCases : List Case :=
  [ { name := "assembly error"
      source := lines ["MOV int ~int:1 ~int:2;"]
      wanted := some (.assembly .constantWrite) },
    { name := "declared const initialization is a local write"
      source := lines ["#LOCAL_VARIABLE _k;", "ALLOC int _k;", "MOV int _k ~int:3;",
        "END int - _k;"]
      checks := [.result (.int 3)] },
    { name := "stack underflow faults"
      source := lines ["MOVPOP int R0;"]
      wantsFault := true },
    { name := "label operand must be an int"
      source := lines ["JMP bool - ~string:\"x\" ~bool:true;"]
      wantsFault := true },
    { name := "data error names the instruction"
      source := lines ["#META \"line=3\";", "ALLOC int R0;", "DIV int R0 ~int:1 ~int:0;"]
      wanted := some (.data .divideByZero)
      wantedText :=
        "data error at @1 DIV int (int, int, int): division by zero: DIV by int zero [line=3]" } ]

def suite : List Case :=
  arithmeticCases ++ vectorCases ++ logicCases ++ transferCases ++ castCases ++ callCases ++
    controlCases ++ failureCases

end VectorMachine.Contract
