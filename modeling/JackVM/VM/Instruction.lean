/-!
# Stack machine code

Instructions and the line of text that stands for each. Their numbers are those of
a word of 16 bits wherever a compiler writes them.
-/

namespace JackVM

inductive Segment
  | constant
  | argument
  | locals
  | static
  | this
  | that
  | pointer
  | temp
  deriving DecidableEq, Repr

inductive Operation
  | add
  | sub
  | neg
  | eq
  | gt
  | lt
  | and
  | or
  | not
  deriving DecidableEq, Repr

inductive Instruction
  | push (segment : Segment) (index : Nat)
  | pop (segment : Segment) (index : Nat)
  | operate (operation : Operation)
  | label (name : String)
  | goto (name : String)
  | ifGoto (name : String)
  | call (callee : String) (arguments : Nat)
  | function (name : String) (locals : Nat)
  | ret
  deriving DecidableEq, Repr

def Segment.word : Segment → String
  | .constant => "constant"
  | .argument => "argument"
  | .locals => "local"
  | .static => "static"
  | .this => "this"
  | .that => "that"
  | .pointer => "pointer"
  | .temp => "temp"

def Operation.word : Operation → String
  | .add => "add"
  | .sub => "sub"
  | .neg => "neg"
  | .eq => "eq"
  | .gt => "gt"
  | .lt => "lt"
  | .and => "and"
  | .or => "or"
  | .not => "not"

/-- Words are separated by one space; the line break is not included. -/
def Instruction.text : Instruction → String
  | .push segment index => "push " ++ segment.word ++ " " ++ toString index
  | .pop segment index => "pop " ++ segment.word ++ " " ++ toString index
  | .operate operation => operation.word
  | .label name => "label " ++ name
  | .goto name => "goto " ++ name
  | .ifGoto name => "if-goto " ++ name
  | .call callee arguments => "call " ++ callee ++ " " ++ toString arguments
  | .function name locals => "function " ++ name ++ " " ++ toString locals
  | .ret => "return"

def Instruction.line (i : Instruction) : String := i.text ++ "\n"

def codeText (code : List Instruction) : String :=
  code.foldl (fun text i => text ++ i.line) ""

end JackVM
